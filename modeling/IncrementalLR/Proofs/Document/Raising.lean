import IncrementalLR.Proofs.Document.Frames
import IncrementalLR.Proofs.Tree.Ornaments

namespace IncrementalLR

namespace Store

-- What an edit does to all nodes above one, also beyond the document that is edited: they
-- are flagged for the version to come, up to one that had been flagged for it already.
def Stamps (store after : Store) (edited : Nat) : Prop :=
  ∀ id, after.Attains store store.nextVersion edited id → id < after.size → (after.node id).Stamped store.nextVersion

variable {store placed : Store} {start : Nat}

theorem stamps_markChanged (he : store.Evolves (fun _ => True) placed)
    (hstamped : ∀ id, (placed.node id).Stamped store.nextVersion → (store.node id).Stamped store.nextVersion) :
    store.Stamps (placed.markChanged start placed.nextVersion) start := by
  have hnext : placed.nextVersion = store.nextVersion := congrArg (· + 1) he.versions.1
  have hmarked : placed.Still (placed.markChanged start placed.nextVersion) :=
    (Evolves.refl.markChanged : placed.Evolves (fun _ => False) _).still
  intro id ha hlt
  rw [hmarked.size] at hlt
  rw [hnext] at ha ⊢
  refine stamped_markChanged (Relation.ReflTransGen.mono (fun node above hstep => ?_) _ _ ha) hlt
  exact ⟨above_markChanged.symm.trans hstep.1, fun h => hstep.2 (hstamped node h)⟩

end Store

namespace Document

variable {document : Document} {store after : Store} {node : Nat}

-- A new node has not been flagged before it is put in.
theorem stamps_insertTokenAfter {anchor new : Nat} {token : Token}
    (h : document.insertTokenAfter store anchor token = (after, .ok new)) : store.Stamps after new := by
  unfold insertTokenAfter allocateToken Store.allocate at h
  dsimp only at h
  generalize hfresh : Node.new (tokenContent token).1 (tokenContent token).2.1 (tokenContent token).2.2 = fresh at h
  cases hinsert : document.insertLeafAfter (store.push fresh) anchor store.size with
  | error fault =>
      rw [hinsert] at h
      cases h
  | ok last =>
      rw [hinsert] at h
      obtain ⟨rfl, hnew⟩ := Prod.mk.inj h
      obtain rfl := Except.ok.inj hnew
      obtain ⟨parent, placed, -, hplaced, rfl⟩ := insertLeafAfter_spec hinsert
      have hpushed : store.Evolves (fun _ => True) (store.push fresh) := hfresh ▸ Store.Evolves.refl.push trivial
      refine Store.stamps_markChanged (hpushed.insertAfter? (Store.closed_all store) trivial trivial trivial hplaced)
        fun id hs => ?_
      replace hs := (Node.stamped_of_unkept (Store.unkept_insertAfter? hplaced)).mp hs
      rw [Store.node_push] at hs
      split at hs
      · rw [← hfresh] at hs
        cases hs.1
      · exact hs

theorem stamps_removeToken (h : document.removeToken store node = .ok after) :
    ∃ parent, (store.node node).parent = some parent ∧ store.Stamps after parent := by
  obtain ⟨parent, placed, hparent, hplaced, rfl⟩ := removeToken_spec h
  have he := Store.Evolves.refl.removeChild? (Store.closed_all store) trivial trivial hplaced
  exact ⟨parent, hparent, Store.stamps_markChanged he fun _ =>
    (Node.stamped_of_unkept (Store.unkept_removeChild? hplaced)).mp⟩

theorem stamps_replaceToken {rule : Option String} {text : String} : store.Stamps (replaceToken store node rule text) node :=
  Store.stamps_markChanged (Store.Evolves.refl.setToken trivial) fun _ => (Node.stamped_of_unkept Store.unkept_revise).mp

end Document

namespace Node

-- What a node has of flags, and what is above it beyond a border.
def flags (node : Node) : Bool × Nat × Option Nat := (node.changed, node.version, node.host)

variable {node other : Node}

theorem flags_of_unkept (h : other.unkept = node.unkept) : other.flags = node.flags :=
  show other.unkept.flags = node.unkept.flags by rw [h]

theorem flags_commit {version newest : Nat} : (node.commit version newest).flags = node.flags := by
  unfold commit branch
  split
  · split
    · rfl
    · rfl
  · split
    · rfl
    · rfl

theorem stamped_of_flags {version : Nat} (h : other.flags = node.flags) : other.Stamped version ↔ node.Stamped version := by
  obtain ⟨hchanged, hrest⟩ := Prod.mk.inj h
  rw [Stamped, Stamped, hchanged, (Prod.mk.inj hrest).1]

end Node

namespace Store

variable {store placed after : Store} {live others : Nat → Prop} {excused : Nat → Prop} {start id : Nat}

-- Whether flags go up from certain nodes. In a tree all of them do. Those for the version to
-- come also go on to the terminal that a tree is embedded in, unless that is excused.
structure Raises (live excused : Nat → Prop) (store : Store) : Prop where
  version_le : ∀ id, live id → (store.node id).changed = true → (store.node id).version ≤ store.nextVersion
  changed : ∀ id, live id → ∀ parent, (store.node id).parent = some parent → (store.node id).changed = true →
    (store.node parent).changed = true
  stamped : ∀ id, live id → ∀ above, (store.node id).above = some above → live above →
    (store.node id).Stamped store.nextVersion → (store.node above).Stamped store.nextVersion ∨ excused above

theorem Raises.excuse (hr : store.Raises live fun _ => False) (excused : Nat → Prop) : store.Raises live excused :=
  ⟨hr.version_le, hr.changed, fun id hid above hup habove hs => (hr.stamped id hid above hup habove hs).imp_right False.elim⟩

theorem Raises.mono (hr : store.Raises live excused) (h : ∀ id, others id → live id) : store.Raises others excused :=
  ⟨fun id hid => hr.version_le id (h id hid), fun id hid => hr.changed id (h id hid),
    fun id hid above hup habove => hr.stamped id (h id hid) above hup (h above habove)⟩

theorem host_markChanged {version : Nat} : ((store.markChanged start version).node id).host = (store.node id).host := by
  rcases @node_markChanged store start id version with h | ⟨-, h⟩
  · rw [h]
  · rw [h]
    rfl

theorem above_of_parent {parent : Nat} (h : (store.node id).parent = some parent) : (store.node id).above = some parent := by
  rw [Node.above, h]
  rfl

-- A walk up leaves nothing behind that is flagged under a node that is not.
theorem Raises.mark (hr : placed.Raises live (· = start)) (hlt : ∀ id, live id → id < placed.size)
    (hparent : ∀ id, live id → ∀ parent, (placed.node id).parent = some parent → live parent) :
    (placed.markChanged start placed.nextVersion).Raises live fun _ => False := by
  have hcard : (placed.unstamped placed.nextVersion).card ≤ placed.size := by
    refine (Finset.card_filter_le _ _).trans ?_
    rw [Finset.card_range]
  obtain ⟨hself, hwalk⟩ := @walk_markChangedFrom placed start placed.nextVersion placed.size hcard
  have hnode := fun id => @node_markChanged placed start id placed.nextVersion
  have hversion : (placed.markChanged start placed.nextVersion).nextVersion = placed.nextVersion :=
    congrArg (· + 1) (Evolves.refl.markChanged : placed.Evolves (fun _ => False) _).still.versions.1
  refine ⟨fun id hid hchanged => ?_, fun id hid parent hup hchanged => ?_, fun id hid above hup habove hs => Or.inl ?_⟩
  · rw [hversion]
    rcases hnode id with h | ⟨-, h⟩
    · rw [h] at hchanged ⊢
      exact hr.version_le id hid hchanged
    · rw [h]
      exact Nat.le_refl _
  · have hbefore : (placed.node id).parent = some parent := by
      rcases hnode id with h | ⟨-, h⟩
      · rwa [h] at hup
      · rwa [h] at hup
    by_cases hold : (placed.node id).changed = true
    · rcases hnode parent with h | ⟨-, h⟩
      · rw [h]
        exact hr.changed id hid parent hbefore hold
      · rw [h]
        rfl
    · have hs : ((placed.markChanged start placed.nextVersion).node id).Stamped placed.nextVersion := by
        rcases hnode id with h | ⟨-, h⟩
        · rw [h] at hchanged
          exact absurd hchanged hold
        · rw [h]
          exact ⟨rfl, rfl⟩
      exact (hwalk id parent (fun h => hold h.1) hs (above_of_parent hbefore) (hlt parent (hparent id hid parent hbefore))).1
  · rw [hversion] at hs ⊢
    rw [above_markChanged] at hup
    by_cases hold : (placed.node id).Stamped placed.nextVersion
    · rcases hr.stamped id hid above hup habove hold with h | rfl
      · exact stamped_markChangedFrom h
      · exact hself (hlt above habove)
    · exact hwalk id above hold hs hup (hlt above habove)

theorem host_setBox {terminal root : Nat} : ((store.setBox terminal root).node id).host =
    if id = root ∧ root < store.size then some terminal else (store.node id).host := by
  rw [setBox, node_update, size_update]
  split
  · rfl
  · rw [node_update]
    split
    · rfl
    · rfl

theorem flag_setBox {terminal root : Nat} : ((store.setBox terminal root).node id).changed = (store.node id).changed ∧
    ((store.setBox terminal root).node id).version = (store.node id).version := by
  have hbox : ((store.update terminal fun node => { node with box := some root }).node id).changed = (store.node id).changed ∧
      ((store.update terminal fun node => { node with box := some root }).node id).version = (store.node id).version := by
    rw [node_update]
    split
    · exact ⟨rfl, rfl⟩
    · exact ⟨rfl, rfl⟩
  rw [setBox, node_update, ← hbox.1, ← hbox.2]
  split
  · exact ⟨rfl, rfl⟩
  · exact ⟨rfl, rfl⟩

-- Flags go on from the root that is embedded, as the terminal is flagged at once.
theorem Raises.embed (hr : store.Raises live fun _ => False) (hlt : ∀ id, live id → id < store.size)
    (hparent : ∀ id, live id → ∀ parent, (store.node id).parent = some parent → live parent) (terminal : Nat)
    (inner : Document) : (Document.embed store terminal inner).Raises live fun _ => False := by
  have hstill : store.Still (store.setBox terminal inner.root) := still_setBox
  have hchanged := fun id => (@flag_setBox store id terminal inner.root).1
  have hversion := fun id => (@flag_setBox store id terminal inner.root).2
  have hattributes : ∀ id, ((store.setBox terminal inner.root).node id).parent = (store.node id).parent :=
    fun id => congrArg Attributes.parent (hstill.node id).attributes
  have hstamped : ∀ id, ((store.setBox terminal inner.root).node id).Stamped store.nextVersion ↔
      (store.node id).Stamped store.nextVersion := fun id => by rw [Node.Stamped, Node.Stamped, hchanged, hversion]
  have hplaced : (store.setBox terminal inner.root).Raises live (· = terminal) := by
    refine ⟨fun id hid hflag => ?_, fun id hid parent hup hflag => ?_, fun id hid above hup habove hs => ?_⟩
    · rw [hchanged] at hflag
      rw [hversion]
      exact hr.version_le id hid hflag
    · rw [hattributes] at hup
      rw [hchanged] at hflag ⊢
      exact hr.changed id hid parent hup hflag
    · replace hs := (hstamped id).mp hs
      rw [Node.above, hattributes, host_setBox] at hup
      by_cases hroot : id = inner.root ∧ inner.root < store.size
      · rw [if_pos hroot] at hup
        cases hparent : (store.node id).parent with
        | none =>
            rw [hparent] at hup
            exact Or.inr (Option.some_inj.mp hup).symm
        | some parent =>
            rw [hparent] at hup
            obtain rfl : parent = above := Option.some_inj.mp hup
            have hchanged := (hr.stamped id hid parent (above_of_parent hparent) habove hs).resolve_right not_false
            exact Or.inl ((hstamped parent).mpr hchanged)
      · rw [if_neg hroot] at hup
        exact Or.inl ((hstamped above).mpr ((hr.stamped id hid above hup habove hs).resolve_right not_false))
  have hsize : (store.setBox terminal inner.root).size = store.size := hstill.size
  exact hplaced.mark (fun id hid => hsize ▸ hlt id hid) fun id hid parent hup => hparent id hid parent (hattributes id ▸ hup)

-- What a step does that flags nothing in trees that there are.
structure Steady (store placed : Store) : Prop where
  size_le : store.size ≤ placed.size
  version : placed.version = store.version
  flags : ∀ id, id < store.size → (placed.node id).flags = (store.node id).flags
  parent : ∀ id, id < store.size → (placed.node id).parent = (store.node id).parent
  fresh : ∀ id, store.size ≤ id → (placed.node id).host = none ∧
    ((placed.node id).changed = true → (placed.node id).version ≤ store.nextVersion ∧ (placed.node id).parent = none)

theorem Raises.steady (hr : store.Raises live excused) (hs : store.Steady placed)
    (hold : ∀ id, others id → live id ∨ store.size ≤ id) (hlt : ∀ id, live id → id < store.size)
    (hup : ∀ id, live id → ∀ above, (store.node id).above = some above → above < store.size) :
    placed.Raises others excused := by
  have hversion : placed.nextVersion = store.nextVersion := congrArg (· + 1) hs.version
  have hchanged : ∀ id, id < store.size → (placed.node id).changed = (store.node id).changed :=
    fun id h => (Prod.mk.inj (hs.flags id h)).1
  have hstamped : ∀ id, id < store.size →
      ((placed.node id).Stamped store.nextVersion ↔ (store.node id).Stamped store.nextVersion) :=
    fun id h => Node.stamped_of_flags (hs.flags id h)
  have habove : ∀ id, id < store.size → (placed.node id).above = (store.node id).above := fun id h => by
    rw [Node.above, Node.above, hs.parent id h, (Prod.mk.inj (Prod.mk.inj (hs.flags id h)).2).2]
  refine ⟨fun id hid hflag => ?_, fun id hid parent hparent hflag => ?_, fun id hid above hnext hlive hflag => ?_⟩
  · rw [hversion]
    rcases hold id hid with h | h
    · rw [(Prod.mk.inj (Prod.mk.inj (hs.flags id (hlt id h))).2).1]
      exact hr.version_le id h (hchanged id (hlt id h) ▸ hflag)
    · exact ((hs.fresh id h).2 hflag).1
  · rcases hold id hid with h | h
    · have hbefore := (hs.parent id (hlt id h)).symm.trans hparent
      rw [hchanged parent (hup id h parent (above_of_parent hbefore))]
      exact hr.changed id h parent hbefore (hchanged id (hlt id h) ▸ hflag)
    · cases ((hs.fresh id h).2 hflag).2.symm.trans hparent
  · rw [hversion] at hflag ⊢
    rcases hold id hid with h | h
    · have hbefore := (habove id (hlt id h)).symm.trans hnext
      have hbound := hup id h above hbefore
      have hliving : live above := (hold above hlive).resolve_right fun hle => Nat.not_lt.mpr hle hbound
      rw [hstamped above hbound]
      exact hr.stamped id h above hbefore hliving ((hstamped id (hlt id h)).mp hflag)
    · rw [Node.above, ((hs.fresh id h).2 hflag.1).2, (hs.fresh id h).1] at hnext
      cases hnext

section Parents

variable {change : Attributes → Attributes} {ids : Option Nat} {node parent anchor new child : Nat}

@[simp] theorem parent_revise (hc : ∀ attributes, (change attributes).parent = attributes.parent) :
    ((store.revise id change).node node).parent = (store.node node).parent := by
  rw [revise, node_update]
  split
  · exact hc _
  · rfl

@[simp] theorem parent_reviseAll (hc : ∀ attributes, (change attributes).parent = attributes.parent) :
    ((store.reviseAll ids change).node node).parent = (store.node node).parent := by
  cases ids with
  | none => rfl
  | some id => exact parent_revise hc

@[simp] theorem parent_setDeleted {deleted : Bool} :
    ((store.setDeleted id deleted).node node).parent = (store.node node).parent := by
  rw [setDeleted, node_update]
  split
  · rfl
  · rfl

-- No node but the one that is put in comes below another one.
theorem parent_insertAfter? (h : store.insertAfter? parent anchor new = some after) (hne : id ≠ new) :
    (after.node id).parent = (store.node id).parent := by
  unfold insertAfter? threadIn at h
  split at h
  · cases h
  · obtain rfl := Option.some_inj.mp h
    have hnew : ∀ (store : Store) (change : Attributes → Attributes),
        ((store.revise new change).node id).parent = (store.node id).parent := fun store change => by
      rw [revise, node_update_ne _ hne]
    dsimp only
    split
    · simp [hnew]
    · simp [hnew]

theorem parent_removeChild? (h : store.removeChild? parent child = some after) :
    (after.node id).parent = (store.node id).parent := by
  unfold removeChild? threadOut at h
  split at h
  · cases h
  · obtain rfl := Option.some_inj.mp h
    dsimp only
    split
    · simp
    · simp

end Parents

-- A step does nothing to flags if it changes only what versions keep.
theorem steady_of_unkept (hsize : store.size ≤ placed.size) (hversion : placed.version = store.version)
    (hu : ∀ id, (placed.node id).unkept = (store.node id).unkept)
    (hp : ∀ id, id < store.size → (placed.node id).parent = (store.node id).parent) : store.Steady placed := by
  refine ⟨hsize, hversion, fun id _ => Node.flags_of_unkept (hu id), hp, fun id hle => ?_⟩
  have hflags := Node.flags_of_unkept (hu id)
  rw [node_of_size_le hle] at hflags
  obtain ⟨hchanged, hrest⟩ := Prod.mk.inj hflags
  exact ⟨(Prod.mk.inj hrest).2, fun h => absurd (h.symm.trans hchanged) (by decide)⟩

theorem steady_push {symbol : Symbol} {rule : Option String} {text : String} :
    store.Steady (store.push (.new symbol rule text)) :=
  steady_of_unkept (by rw [size_push]; exact Nat.le_succ _) rfl (fun _ => unkept_push) fun id hlt => by
    rw [node_push, if_neg (Nat.ne_of_lt hlt)]

theorem steady_insertAfter? {symbol : Symbol} {rule : Option String} {text : String} {parent anchor : Nat}
    (h : (store.push (.new symbol rule text)).insertAfter? parent anchor store.size = some placed) : store.Steady placed := by
  have he := (Evolves.refl : (store.push (.new symbol rule text)).Evolves (fun _ => True) _).insertAfter?
    (closed_all _) trivial trivial trivial h
  have hsize := he.size_le
  rw [size_push] at hsize
  refine steady_of_unkept (Nat.le_of_succ_le hsize) he.versions.1 (fun id => (unkept_insertAfter? h).trans unkept_push)
    fun id hlt => ?_
  rw [parent_insertAfter? h (Nat.ne_of_lt hlt), node_push, if_neg (Nat.ne_of_lt hlt)]

theorem steady_removeChild? {parent child : Nat} (h : store.removeChild? parent child = some placed) : store.Steady placed :=
  have he := Evolves.refl.removeChild? (closed_all store) trivial trivial h
  steady_of_unkept he.size_le he.versions.1 (fun _ => unkept_removeChild? h) fun _ _ => parent_removeChild? h

theorem steady_setToken {rule : Option String} {text : String} : store.Steady (store.setToken id rule text) :=
  steady_of_unkept (Nat.le_of_eq (size_revise _).symm) rfl (fun _ => unkept_revise) fun _ _ => parent_revise fun _ => rfl

theorem steady_remarked (hr : store.Remarked live after) : store.Steady after := by
  have hnode : ∀ id, (after.node id).unmarked = (store.node id).unmarked := hr.unmarked
  refine steady_of_unkept (Nat.le_of_eq hr.size.symm) hr.alike.version (fun id => ?_) fun id _ =>
    congrArg Attributes.parent hr.attributes
  exact show (after.node id).unmarked.unkept = (store.node id).unmarked.unkept by rw [hnode]

end Store

namespace Document

variable {store : Store} {contents : List (Symbol × Option String × String)}

theorem unkept_allocateLeaves {id : Nat} :
    ((allocateLeaves contents store).1.node id).unkept = (store.node id).unkept := by
  induction contents generalizing store with
  | nil => rfl
  | cons content rest ih => exact ih.trans Store.unkept_push

theorem flags_saveAll {ids : List Nat} {id : Nat} :
    ((ids.foldl (fun store id => store.save id store.version) store).node id).flags = (store.node id).flags := by
  induction ids generalizing store with
  | nil => rfl
  | cons first rest ih =>
      rw [List.foldl_cons, ih, Store.save, Store.node_update]
      split
      · rfl
      · rfl

-- Of new nodes only one is flagged, and nothing is above it.
theorem Opens.steady {opened after : Store} {ids saved : List Nat} {root version : Nat} (ho : Opens store ids after)
    (hafter : saved.foldl (fun store id => store.save id store.version) (opened.markChanged root version) = after)
    (hu : ∀ id, (opened.node id).unkept = (store.node id).unkept) (hroot : store.size ≤ root)
    (habove : (after.node root).above = none) (hversion : version ≤ store.nextVersion) : store.Steady after := by
  have hattributes : ∀ id, (after.node id).toAttributes = (opened.node id).toAttributes := fun id => by
    rw [← hafter, Store.attributes_saveAll]
    exact ((Store.Evolves.refl.markChanged : opened.Evolves (fun _ => False) (opened.markChanged root version)).still.node
      id).attributes
  have hflags : ∀ id, (after.node id).flags = ((opened.markChanged root version).node id).flags := fun id => by
    rw [← hafter, flags_saveAll]
  have hhost : ∀ id, ((opened.markChanged root version).node id).host = (opened.node id).host :=
    fun _ => Store.host_markChanged
  -- nothing is above the root, so that the walk up ends there
  have hopened : (opened.node root).above = none := by
    rw [← habove, Node.above, Node.above, hattributes, ← hhost, (Prod.mk.inj (Prod.mk.inj (hflags root)).2).2]
  have hnode : ∀ id, (after.node id).flags = (store.node id).flags ∨
      id = root ∧ (after.node id).flags = (true, version, (opened.node id).host) := fun id => by
    rw [hflags]
    rcases @Store.node_markChanged opened root id version with h | ⟨hrises, h⟩
    · rw [h]
      exact Or.inl (Node.flags_of_unkept (hu id))
    · rw [h]
      refine Or.inr ⟨?_, rfl⟩
      cases hrises.cases_head with
      | inl h => exact h.symm
      | inr h =>
          obtain ⟨above, hstep, -⟩ := h
          cases hopened.symm.trans hstep
  have hold : ∀ id, store.size ≤ id → (store.node id).flags = (false, 0, none) := fun id hle => by
    rw [Store.node_of_size_le hle]
    rfl
  refine ⟨ho.spans.1, ho.spans.2.1, fun id hlt => ?_, fun id hlt => ?_, fun id hle => ?_⟩
  · rcases hnode id with h | ⟨rfl, -⟩
    · exact h
    · exact absurd hroot (Nat.not_le.mpr hlt)
  · obtain ⟨linked, hsaved, hnew, hevolves⟩ := ho
    have he := hevolves _ (Opens.closed fun id hid => (hnew id hid).1) fun _ hid => hid
    have hsame := (he.node hlt).resolve_right fun h => Nat.not_lt.mpr (hnew id h.1).1 hlt
    exact congrArg Attributes.parent (hsaved.toAttributes.trans hsame.attributes)
  · rcases hnode id with h | ⟨rfl, h⟩
    · rw [hold id hle] at h
      obtain ⟨hchanged, hrest⟩ := Prod.mk.inj h
      exact ⟨(Prod.mk.inj hrest).2, fun h => absurd (h.symm.trans hchanged) (by decide)⟩
    · obtain ⟨-, hrest⟩ := Prod.mk.inj h
      obtain ⟨hat, hhost⟩ := Prod.mk.inj hrest
      obtain ⟨hparent, hhost'⟩ := Option.or_eq_none_iff.mp habove
      exact ⟨hhost', fun _ => ⟨hat ▸ hversion, hparent⟩⟩

theorem steady_ofLeaves (hleaf : ∀ content ∈ contents, (Label.ofContent content).symbol.isNonterminal = false) :
    store.Steady (ofLeaves store contents).1 := by
  have hrooted := rooted_ofLeaves store hleaf
  obtain ⟨ids, hopens, -⟩ := exists_opens store contents
  unfold ofLeaves at hrooted hopens ⊢
  simp only [Store.allocate, Store.allocateNode_snd, Store.size_push] at hrooted hopens ⊢
  have hnew := (@allocateLeaves_new ((store.push (.new (.terminal "") none "")).push (.new .finish none "")) contents).1
  simp only [Store.size_push] at hnew
  refine hopens.steady rfl (fun id => ?_) (Nat.le_trans (by omega) hnew) hrooted.above ?_
  · rw [Store.unkept_relink, Store.unkept_allocateNode, unkept_allocateLeaves, Store.unkept_push, Store.unkept_push]
  · have hfilled : store.Evolves (fun _ => True) (allocateLeaves contents
        ((store.push (.new (.terminal "") none "")).push (.new .finish none ""))).1 :=
      allocateLeaves_evolves ((Store.Evolves.refl.push trivial).push trivial) fun _ _ => trivial
    exact Nat.le_succ_of_le (Nat.le_of_eq (hfilled.allocateNode trivial fun _ _ => trivial).versions.1)

end Document

end IncrementalLR
