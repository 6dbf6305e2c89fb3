import IncrementalLR.Proofs.Document.Consistency

namespace IncrementalLR

namespace Store

variable {store middle after result : Store} {inside : Nat → Prop} {ids : List Nat} {id version : Nat}

-- Whether a step records nothing, and leaves what is embedded in nodes that there were.
structure Remembers (store after : Store) : Prop where
  size_le : store.size ≤ after.size
  newest : after.newest = store.newest
  history : ∀ id, (after.node id).history = (store.node id).history
  box : ∀ id, id < store.size → (after.node id).box = (store.node id).box

theorem Remembers.trans (hfirst : store.Remembers middle) (hsecond : middle.Remembers after) : store.Remembers after where
  size_le := Nat.le_trans hfirst.size_le hsecond.size_le
  newest := hsecond.newest.trans hfirst.newest
  history id := (hsecond.history id).trans (hfirst.history id)
  box id hlt := (hsecond.box id (Nat.lt_of_lt_of_le hlt hfirst.size_le)).trans (hfirst.box id hlt)

theorem Evolves.remembers (he : store.Evolves inside after) : store.Remembers after :=
  ⟨he.size_le, he.versions.2, fun _ => he.history, fun _ _ => he.box⟩

theorem Remarked.box (hr : store.Remarked inside after) : (after.node id).box = (store.node id).box :=
  show (after.node id).unmarked.box = (store.node id).unmarked.box by rw [hr.unmarked]

theorem Steps.box (hs : store.Steps inside after) : (after.node id).box = (store.node id).box := by
  obtain ⟨middle, hr, he⟩ := hs
  exact he.box.trans hr.box

theorem Steps.remembers (hs : store.Steps inside after) : store.Remembers after := by
  obtain ⟨middle, hr, he⟩ := id hs
  refine ⟨hr.size ▸ he.size_le, he.versions.2.trans hr.alike.newest, fun id => ?_, fun id _ => hs.box⟩
  exact he.history.trans hr.history

theorem Steps.version_eq (hs : store.Steps inside after) : after.version = store.version := by
  obtain ⟨middle, hr, he⟩ := hs
  exact he.versions.1.trans hr.alike.version

theorem Restored.box (hr : store.Restored version after) : (after.node id).box = (store.node id).box := by
  by_cases hlt : id < store.size
  · rw [hr.node id hlt]
    change ((store.node id).load version).box = _
    unfold Node.load
    split
    · rfl
    · rfl
  · rw [node_of_size_le (Nat.le_of_not_lt hlt), node_of_size_le (hr.size ▸ Nat.le_of_not_lt hlt)]

theorem Restored.remembers (hr : store.Restored version after) : store.Remembers after :=
  ⟨Nat.le_of_eq hr.size.symm, hr.clock.2, fun _ => hr.kept.1, fun _ _ => hr.box⟩

theorem box_commit : (store.commit.node id).box = (store.node id).box := by
  rw [node_commit]
  unfold Node.commit
  split
  · rfl
  · rfl

theorem box_setBox {terminal root : Nat} : ((store.setBox terminal root).node id).box =
    if id = terminal ∧ terminal < store.size then some root else (store.node id).box := by
  have hbox : ((store.update terminal fun node => { node with box := some root }).node id).box =
      if id = terminal ∧ terminal < store.size then some root else (store.node id).box := by
    rw [node_update]
    split
    · rfl
    · rfl
  rw [setBox, node_update, ← hbox]
  split
  · rfl
  · rfl

end Store

namespace Document

variable {store after : Store} {ids : List Nat} {id : Nat}

-- A new document is embedded in nothing yet, and nothing in it.
theorem Opens.box (ho : Opens store ids after) : (after.node id).box = (store.node id).box := by
  obtain ⟨linked, hsaved, -, hevolves⟩ := ho
  rw [hsaved.kept, (hevolves (fun _ => True) (Store.closed_all _) fun _ _ => trivial).box]

theorem Opens.spans (ho : Opens store ids after) : store.size ≤ after.size ∧ after.version = store.version ∧
    after.newest = store.newest ∧ ∀ id ∈ ids, store.size ≤ id := by
  obtain ⟨linked, hsaved, hnew, hevolves⟩ := ho
  have he := hevolves (fun _ => True) (Store.closed_all _) fun _ _ => trivial
  exact ⟨hsaved.size.symm ▸ he.size_le, hsaved.version.trans he.versions.1, hsaved.newest.trans he.versions.2,
    fun id hid => (hnew id hid).1⟩

end Document

namespace Edit

variable {edit : Edit} {store after : Store} {inside : Nat → Prop}

-- The root that an edit embeds in a new node.
def inner? : Edit → Option Nat
  | insertBox _ _ _ inner => some inner.root
  | _ => none

-- What edits leave alone, apart from those that create documents or embed them in nodes
-- that there are.
structure Drafts (edit : Edit) (store after : Store) : Prop extends store.Remembers after where
  version : after.version = store.version
  boxes : ∀ id inner, store.size ≤ id → (after.node id).box = some inner → edit.inner? = some inner

theorem drafts_of_steps (hs : store.Steps inside after) : edit.Drafts store after := by
  refine ⟨Store.Steps.remembers hs, Store.Steps.version_eq hs, fun id inner hge hbox => ?_⟩
  rw [Store.Steps.box hs, Store.node_of_size_le hge] at hbox
  cases hbox

-- Whether an edit embeds documents of the arena alone, each along with its box. Unless they
-- may be stray, they are such as exist at the version of the store.
def Embeds (stray : Bool) (documents : List Document) (store : Store) : Edit → Prop
  | create _ | embed _ _ => False
  | insertBox _ _ _ inner =>
      inner ∈ documents ∧ (stray = false → (store.node inner.root).history.existedAt store.version = true)
  | insert _ _ _ | remove _ _ | replace _ _ _ | parse _ _ _ _ => True

theorem run_drafts {stray : Bool} {documents : List Document} (he : edit.Embeds stray documents store)
    (h : edit.run store = some after) : edit.Drafts store after := by
  have hc := Store.closed_all store
  cases edit with
  | create _ | embed _ _ => exact he.elim
  | insert document anchor token =>
      obtain rfl := Option.some_inj.mp h
      unfold Document.insertTokenAfter Document.allocateToken Store.allocate
      dsimp only
      cases hplace : document.insertLeafAfter (store.push _) anchor store.size with
      | error fault => exact drafts_of_steps (@Document.push_evolves _ (fun _ => True) _ _ _).steps
      | ok placed => exact drafts_of_steps (Document.insertLeaf_evolves hc trivial hplace).steps
  | insertBox document anchor language inner =>
      obtain rfl := Option.some_inj.mp h
      unfold Document.insertBoxAfter Store.allocate
      dsimp only
      cases hplace : document.insertLeafAfter (store.push _) anchor store.size with
      | error fault => exact drafts_of_steps (@Document.push_evolves _ (fun _ => True) _ _ _).steps
      | ok placed =>
          have hsteps := (Document.insertLeaf_evolves hc trivial hplace).steps
          have hstill : placed.Still (Document.embed placed store.size inner) := Document.embed_still
          have hmarked : ((placed.setBox store.size inner.root).Evolves (fun _ => False)
            (Document.embed placed store.size inner)) := Store.Evolves.refl.markChanged
          have hbox : ∀ id, ((Document.embed placed store.size inner).node id).box =
              if id = store.size ∧ store.size < placed.size then some inner.root else (store.node id).box := fun id => by
            rw [hmarked.box, Store.box_setBox, Store.Steps.box hsteps]
          have hremembers := Store.Steps.remembers hsteps
          refine ⟨⟨hstill.size ▸ hremembers.size_le, hstill.versions.2.trans hremembers.newest, fun id => ?_,
            fun id hlt => ?_⟩, hstill.versions.1.trans (Store.Steps.version_eq hsteps), fun id other hge hother => ?_⟩
          · exact (hstill.node id).history.trans (hremembers.history id)
          · exact (hbox id).trans (if_neg fun h => Nat.ne_of_lt hlt h.1)
          · replace hother := (hbox id).symm.trans hother
            split at hother
            · exact hother
            · rw [Store.node_of_size_le hge] at hother
              cases hother
  | remove document node =>
      rw [run] at h
      split at h
      · rename_i removed hremoved
        obtain rfl := Option.some_inj.mp h
        exact drafts_of_steps (Document.removeToken_evolves hc trivial hremoved).steps
      · obtain rfl := Option.some_inj.mp h
        exact drafts_of_steps (Store.Remarked.refl (fun _ => True) store).steps
  | replace node rule text =>
      obtain rfl := Option.some_inj.mp h
      have hreplaced : store.Evolves (store.WithNew _ fun _ => True) (Document.replaceToken store node rule text) :=
        Document.replaceToken_evolves trivial
      exact drafts_of_steps hreplaced.steps
  | parse parser fuel document reparse =>
      obtain ⟨⟨parser', last, status⟩, hp, rfl⟩ := Option.map_eq_some_iff.mp h
      rcases Parser.parse_remarks hc (Document.within_all _) hp with ⟨-, middle, hr, he⟩ | ⟨-, hr⟩
      · exact drafts_of_steps ⟨middle, hr, he⟩
      · exact drafts_of_steps hr.steps

end Edit

end IncrementalLR
