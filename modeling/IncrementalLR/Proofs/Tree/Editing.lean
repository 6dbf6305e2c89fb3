import IncrementalLR.Proofs.Tree.Gap
import IncrementalLR.Tree.Edit

namespace IncrementalLR

theorem not_mem_dropLast_of_getLast? {ids : List Nat} {last : Nat} (hn : ids.Nodup) (hl : last ∈ ids.getLast?) :
    last ∉ ids.dropLast := by
  rcases List.eq_nil_or_concat' ids with rfl | ⟨rest, final, rfl⟩
  · cases hl
  · obtain rfl : final = last := by simpa using hl
    rw [List.dropLast_concat]
    exact fun h => (List.nodup_append.mp hn).2.2 final h final List.mem_cons_self rfl

theorem not_mem_tail_of_head? {ids : List Nat} {first : Nat} (hn : ids.Nodup) (hf : first ∈ ids.head?) :
    first ∉ ids.tail := by
  cases ids with
  | nil => cases hf
  | cons head rest => exact Option.some_inj.mp hf ▸ (List.nodup_cons.mp hn).1

namespace Store

variable {store other : Store} {root parent anchor new id version : Nat} {gap : Gap} {roots filled before after : List Nat}
  {left right : Option Nat}

-- A child between its neighbours.
theorem chain_insert (hc : store.Chain parent left right (before ++ ([anchor] ++ after)))
    (hnew : (other.view new).parent = some parent ∧ (other.view new).left = some anchor ∧
      (other.view new).right = after.head?.or right)
    (hanchor : (other.view anchor).parent = (store.view anchor).parent ∧
      (other.view anchor).left = (store.view anchor).left ∧ (other.view anchor).right = some new)
    (hfirst : ∀ first ∈ after.head?, (other.view first).parent = (store.view first).parent ∧
      (other.view first).left = some new ∧ (other.view first).right = (store.view first).right)
    (hothers : ∀ id ∈ before ++ after.tail, store.SamePlace other id) :
    other.Chain parent left right (before ++ ([anchor, new] ++ after)) := by
  rw [chain_append] at hc ⊢
  obtain ⟨hbefore, hparent, hleft, -, hafter⟩ := hc
  refine ⟨hbefore.congr fun id h => hothers id (List.mem_append_left _ h), hanchor.1.trans hparent,
    hanchor.2.1.trans hleft, hanchor.2.2, hnew.1, hnew.2.1, hnew.2.2, ?_⟩
  cases after with
  | nil => trivial
  | cons first rest =>
      obtain ⟨hparent, -, hright, hrest⟩ := hafter
      obtain ⟨hup, hback, hon⟩ := hfirst first rfl
      exact ⟨hup.trans hparent, hback, hon.trans hright, hrest.congr fun id h => hothers id (List.mem_append_right _ h)⟩

theorem chain_remove (hc : store.Chain parent left right (before ++ ([anchor] ++ after)))
    (hlast : ∀ last ∈ before.getLast?, (other.view last).parent = (store.view last).parent ∧
      (other.view last).left = (store.view last).left ∧ (other.view last).right = after.head?.or right)
    (hfirst : ∀ first ∈ after.head?, (other.view first).parent = (store.view first).parent ∧
      (other.view first).left = before.getLast?.or left ∧ (other.view first).right = (store.view first).right)
    (hothers : ∀ id ∈ before.dropLast ++ after.tail, store.SamePlace other id) :
    other.Chain parent left right (before ++ after) := by
  rw [chain_append] at hc ⊢
  obtain ⟨hbefore, -, -, -, hafter⟩ := hc
  refine ⟨?_, ?_⟩
  · rcases List.eq_nil_or_concat' before with rfl | ⟨rest, last, rfl⟩
    · trivial
    · rw [chain_append] at hbefore ⊢
      obtain ⟨hrest, hparent, hleft, -, -⟩ := hbefore
      obtain ⟨hup, hback, hon⟩ := hlast last (by simp)
      exact ⟨hrest.congr fun id h => hothers id (List.mem_append_left _ (by simpa using h)), hup.trans hparent,
        hback.trans hleft, hon, trivial⟩
  · cases after with
    | nil => trivial
    | cons first rest =>
        obtain ⟨hparent, -, hright, hrest⟩ := hafter
        obtain ⟨hup, hback, hon⟩ := hfirst first rfl
        exact ⟨hup.trans hparent, hback, hon.trans hright,
          hrest.congr fun id h => hothers id (List.mem_append_right _ h)⟩

-- New trees in a gap need no change but at the parent and the siblings.
theorem Surrounds.replace (hs : store.Surrounds root gap roots) (hn : (root :: gap.ids).Nodup)
    (hself : other.view (gap.parent root) =
      { store.view (gap.parent root) with children := gap.siblings filled })
    (hchain : other.Chain (gap.parent root) none none (gap.siblings filled))
    (hsiblings : ∀ id ∈ gap.before.roots ++ gap.after.roots, (other.view id).label = (store.view id).label ∧
      (other.view id).children = (store.view id).children)
    (hv : ∀ id ∈ gap.ids, id ≠ gap.parent root → id ∉ gap.before.roots ++ gap.after.roots →
      other.view id = store.view id) : other.Surrounds root gap filled := by
  obtain ⟨hfirst, hlast⟩ := List.forall_mem_append.mp hsiblings
  -- neither the parent nor the siblings are below the siblings
  have hkept : store.Kept gap.before → store.Kept gap.after →
      (gap.parent root :: (gap.before.ids ++ gap.after.ids)).Nodup →
      gap.before.ids ++ gap.after.ids ⊆ gap.ids → other.Kept gap.before ∧ other.Kept gap.after := by
    intro hbefore hafter hnodup hsub
    obtain ⟨hparent, hnodup⟩ := List.nodup_cons.mp hnodup
    obtain ⟨hnbefore, hnafter, hapart⟩ := List.nodup_append.mp hnodup
    refine ⟨hbefore.congr_below hnbefore hfirst fun id h hne => ?_, hafter.congr_below hnafter hlast fun id h hne => ?_⟩
    · refine hv id (hsub (List.mem_append_left _ h)) (fun he => hparent (he ▸ List.mem_append_left _ h)) fun hmem => ?_
      rcases List.mem_append.mp hmem with hmem | hmem
      · exact hne hmem
      · exact hapart id h id (Forest.mem_ids_of_roots hmem) rfl
    · refine hv id (hsub (List.mem_append_right _ h)) (fun he => hparent (he ▸ List.mem_append_right _ h)) fun hmem => ?_
      rcases List.mem_append.mp hmem with hmem | hmem
      · exact hapart id (Forest.mem_ids_of_roots hmem) id h rfl
      · exact hne hmem
  cases gap with
  | top before after =>
      obtain ⟨hbefore, hafter, -⟩ := hs
      obtain ⟨hbefore, hafter⟩ := hkept hbefore hafter hn (List.Subset.refl _)
      exact ⟨hbefore, hafter, hchain⟩
  | inside outer id symbol changed before after =>
      obtain ⟨hbefore, hafter, -, hlabel, -, hsymbol, houter⟩ := hs
      have hids := (List.nodup_cons.mp hn).2
      rw [Gap.ids, ← List.cons_append] at hids
      obtain ⟨hinner, hnouter, hapart⟩ := List.nodup_append.mp hids
      obtain ⟨hbefore, hafter⟩ := hkept hbefore hafter hinner
        fun other h => List.mem_cons_of_mem _ (List.mem_append_left _ h)
      change other.view id = _ at hself
      refine ⟨hbefore, hafter, hchain, ?_, ?_, hsymbol, ?_⟩
      · rw [hself]
        exact hlabel
      · rw [hself]
        rfl
      · refine houter.congr hnouter ?_ fun node h => ?_
        · refine List.forall_mem_singleton.mpr ?_
          rw [SamePlace, hself]
          exact ⟨rfl, rfl, rfl⟩
        · refine hv node (List.mem_cons_of_mem _ (List.mem_append_right _ h))
            (fun he => hapart id List.mem_cons_self node h he.symm) fun hmem => ?_
          refine hapart node (List.mem_cons_of_mem _ ?_) node h rfl
          exact List.mem_append.mpr ((List.mem_append.mp hmem).imp Forest.mem_ids_of_roots Forest.mem_ids_of_roots)

-- What a walk up from a node makes of the views.
structure Flags (store other : Store) (nodes : List Nat) : Prop where
  size : other.size = store.size
  outside : ∀ id, id ∉ nodes → other.view id = store.view id
  parsed : ∀ id, (other.view id).parsed = (store.view id).parsed

theorem Flags.refl (store : Store) (nodes : List Nat) : store.Flags store nodes := ⟨rfl, fun _ _ => rfl, fun _ => rfl⟩

theorem Flags.trans {middle : Store} {nodes others : List Nat} (hfirst : store.Flags middle nodes)
    (hsecond : middle.Flags other others) : store.Flags other (nodes ++ others) := by
  refine ⟨hsecond.size.trans hfirst.size, fun id h => ?_, fun id => (hsecond.parsed id).trans (hfirst.parsed id)⟩
  rw [List.mem_append, not_or] at h
  exact (hsecond.outside id h.2).trans (hfirst.outside id h.1)

theorem flags_update (store : Store) (id version : Nat) :
    store.Flags (store.update id fun node => { node with changed := true, version := version }) [id] := by
  refine ⟨size_update _, fun node h => view_update_ne _ fun he => h (he ▸ List.mem_cons_self), fun node => ?_⟩
  rw [view, node_update]
  split
  · rfl
  · rfl

theorem view_flagged (hlt : id < store.size) :
    (store.update id fun node => { node with changed := true, version := version }).view id =
      { store.view id with label := { (store.view id).label with changed := true } } := by
  rw [view, node_update_self _ hlt]
  rfl

-- A node is flagged, and after it the nodes above: what is around the gap is flagged then.
theorem Surrounds.flag_inside {outer : Gap} {id : Nat} {symbol : Symbol} {changed : Bool} {before after : Forest}
    {marked last : Store} (hs : store.Surrounds root (.inside outer id symbol changed before after) roots)
    (hn : (root :: (Gap.inside outer id symbol changed before after).ids).Nodup) (hf : store.Flags marked [id])
    (hself : marked.view id =
      { store.view id with label := { (store.view id).label with changed := true } })
    (hflags : marked.Flags last (outer.rungs ++ [root])) (hsurrounds : last.Surrounds root outer.flag [id]) :
    last.Surrounds root (Gap.inside outer id symbol changed before after).flag roots := by
  obtain ⟨hbefore, hafter, hc, hlabel, hchildren, hsymbol, -⟩ := hs
  obtain ⟨hroot, hids⟩ := List.nodup_cons.mp hn
  rw [Gap.ids, ← List.cons_append] at hids
  obtain ⟨hinner, -, hapart⟩ := List.nodup_append.mp hids
  obtain ⟨hid, hinner⟩ := List.nodup_cons.mp hinner
  obtain ⟨hnbefore, hnafter, -⟩ := List.nodup_append.mp hinner
  have hne : root ≠ id := fun he => hroot (he ▸ List.mem_cons_self)
  have houtside : ∀ node, node ≠ root → node ∉ outer.ids → last.view node = marked.view node := by
    intro node hne hnot
    refine hflags.outside node fun hmem => ?_
    rcases List.mem_append.mp hmem with h | h
    · exact hnot (Gap.rungs_subset h)
    · exact hne (List.mem_singleton.mp h)
  have hnear : ∀ node ∈ before.ids ++ after.ids, last.view node = store.view node := by
    intro node h
    rw [houtside node, hf.outside node]
    · rintro hmem
      obtain rfl := List.mem_singleton.mp hmem
      exact hid h
    · rintro rfl
      exact hroot (List.mem_cons_of_mem _ (List.mem_append_left _ h))
    · exact fun hmem => hapart node (List.mem_cons_of_mem _ h) node hmem rfl
  have hview := (houtside id (Ne.symm hne) fun hmem => hapart id List.mem_cons_self id hmem rfl).trans hself
  refine ⟨hbefore.congr hnbefore fun node h => hnear node (List.mem_append_left _ h),
    hafter.congr hnafter fun node h => hnear node (List.mem_append_right _ h),
    hc.congr fun node _ => .of_parsed ((hf.trans hflags).parsed node), ?_, ?_, hsymbol, hsurrounds⟩
  · rw [hview, hlabel]
  · rw [hview]
    exact hchildren

-- Nodes above a gap are flagged one by one. The walk stops early only where all
-- nodes that are left have been flagged before.
theorem Surrounds.mark {fuel : Nat} (hs : store.Surrounds root gap roots) (hn : (root :: gap.ids).Nodup)
    (hcalm : gap.Calm) (habove : (store.node root).above = none)
    (hlt : ∀ id ∈ root :: gap.ids, id < store.size) (hfuel : gap.rungs.length < fuel) :
    (markChangedFrom version fuel (gap.parent root) store).Surrounds root gap.flag roots ∧
      store.Flags (markChangedFrom version fuel (gap.parent root) store) (gap.rungs ++ [root]) := by
  induction gap generalizing store roots fuel with
  | top before after =>
      obtain ⟨fuel, rfl⟩ := Nat.exists_eq_add_of_le' (Nat.one_le_of_lt hfuel)
      rw [Gap.parent]
      generalize hmarked : markChangedFrom version (fuel + 1) root store = marked
      rw [markChangedFrom] at hmarked
      split at hmarked
      · subst hmarked
        exact ⟨hs, .refl _ _⟩
      · rw [habove] at hmarked
        subst hmarked
        have hf := store.flags_update root version
        refine ⟨hs.congr (List.nodup_cons.mp hn).2 (fun id _ => .of_parsed (hf.parsed id)) fun id h => ?_, hf⟩
        refine hf.outside id fun hmem => ?_
        obtain rfl := List.mem_singleton.mp hmem
        exact (List.nodup_cons.mp hn).1 h
  | inside outer id symbol changed before after ih =>
      obtain ⟨fuel, rfl⟩ := Nat.exists_eq_add_of_le' (Nat.one_le_of_lt hfuel)
      have ⟨_, _, _, hlabel, _, _, houter⟩ := hs
      rw [Gap.parent]
      generalize hlast : markChangedFrom version (fuel + 1) id store = last
      rw [markChangedFrom] at hlast
      split at hlast
      · rename_i hstop
        subst hlast
        obtain rfl : changed = true := by
          have hflag : (store.node id).changed = changed := congrArg Label.changed hlabel
          rw [← hflag]
          exact (Bool.and_eq_true_iff.mp hstop).1
        refine ⟨?_, .refl _ _⟩
        rw [Gap.flag, Gap.flag_of_flagged (hcalm.1 rfl)]
        exact hs
      · have hparent : (store.node id).parent = some (outer.parent root) := by
          refine houter.chain.parent_mem ?_
          simp [Gap.siblings]
        rw [show (store.node id).above = some (outer.parent root) by rw [Node.above, hparent]; rfl] at hlast
        dsimp only at hlast
        obtain ⟨hroot, hids⟩ := List.nodup_cons.mp hn
        rw [Gap.ids, ← List.cons_append] at hids
        obtain ⟨-, hnouter, hapart⟩ := List.nodup_append.mp hids
        have hsub : ∀ node ∈ root :: outer.ids, node ∈ root :: (Gap.inside outer id symbol changed before after).ids := by
          refine List.forall_mem_cons.mpr ⟨List.mem_cons_self, fun node h => ?_⟩
          exact List.mem_cons_of_mem _ (List.mem_cons_of_mem _ (List.mem_append_right _ h))
        have hf := store.flags_update id version
        have hself := @view_flagged store id version (hlt id (List.mem_cons_of_mem _ List.mem_cons_self))
        have hsame : (store.update id fun node => { node with changed := true, version := version }).node root =
            store.node root := node_update_ne _ fun he => hroot (he ▸ List.mem_cons_self)
        generalize (store.update id fun node => { node with changed := true, version := version }) = marked
          at hf hself hsame hlast
        subst hlast
        have houter' : marked.Surrounds root outer [id] := by
          refine houter.congr hnouter (fun node _ => .of_parsed (hf.parsed node)) fun node h => hf.outside node fun he => ?_
          exact hapart id List.mem_cons_self node h (List.mem_singleton.mp he).symm
        have hnroot : (root :: outer.ids).Nodup := hn.sublist (((List.sublist_append_right _ _).cons id).cons_cons root)
        obtain ⟨hsurrounds, hflags⟩ := ih houter' hnroot hcalm.2 (hsame ▸ habove)
          (fun node h => hf.size ▸ hlt node (hsub node h)) (Nat.lt_of_succ_lt_succ hfuel)
        exact ⟨hs.flag_inside hn hf hself hflags hsurrounds, hf.trans hflags⟩

-- The same for a walk from a leaf in the gap.
theorem Surrounds.mark_leaf {leaf fuel : Nat} (hs : store.Surrounds root gap roots) (hn : (root :: gap.ids).Nodup)
    (hleaf : leaf ∉ root :: gap.ids) (hparent : (store.view leaf).parent = some (gap.parent root))
    (hcalm : gap.Calm) (hflagged : (store.view leaf).label.changed = true → gap.Flagged)
    (habove : (store.node root).above = none) (hlt : ∀ id ∈ leaf :: root :: gap.ids, id < store.size)
    (hfuel : gap.rungs.length + 1 < fuel) :
    (markChangedFrom version fuel leaf store).Surrounds root gap.flag roots ∧
      store.Flags (markChangedFrom version fuel leaf store) (leaf :: (gap.rungs ++ [root])) ∧
      ((markChangedFrom version fuel leaf store).view leaf).label =
        { (store.view leaf).label with changed := true } := by
  obtain ⟨hleaflt, hlt⟩ := List.forall_mem_cons.mp hlt
  obtain ⟨fuel, rfl⟩ := Nat.exists_eq_add_of_le' (Nat.one_le_of_lt hfuel)
  generalize hlast : markChangedFrom version (fuel + 1) leaf store = last
  rw [markChangedFrom] at hlast
  split at hlast
  · rename_i hstop
    subst hlast
    have hchanged : (store.view leaf).label.changed = true := (Bool.and_eq_true_iff.mp hstop).1
    rw [Gap.flag_of_flagged (hflagged hchanged)]
    refine ⟨hs, .refl _ _, ?_⟩
    rw [← hchanged]
  · have hup : (store.node leaf).parent = some (gap.parent root) := hparent
    rw [show (store.node leaf).above = some (gap.parent root) by rw [Node.above, hup]; rfl] at hlast
    dsimp only at hlast
    have hf := store.flags_update leaf version
    have hself := @view_flagged store leaf version hleaflt
    have hroot : (store.update leaf fun node => { node with changed := true, version := version }).node root =
        store.node root := node_update_ne _ fun he => hleaf (he ▸ List.mem_cons_self)
    generalize (store.update leaf fun node => { node with changed := true, version := version }) = marked
      at hf hself hroot hlast
    subst hlast
    have hmarked : marked.Surrounds root gap roots := by
      refine hs.congr (List.nodup_cons.mp hn).2 (fun node _ => .of_parsed (hf.parsed node)) fun node h => ?_
      refine hf.outside node fun he => hleaf ?_
      exact List.mem_singleton.mp he ▸ List.mem_cons_of_mem _ h
    obtain ⟨hsurrounds, hflags⟩ := @mark _ _ version _ _ fuel hmarked hn hcalm (hroot ▸ habove)
      (fun node h => hf.size ▸ hlt node h) (Nat.lt_of_succ_lt_succ hfuel)
    refine ⟨hsurrounds, hf.trans hflags, ?_⟩
    rw [hflags.outside leaf fun hmem => ?_, hself]
    rcases List.mem_append.mp hmem with h | h
    · exact hleaf (List.mem_cons_of_mem _ (Gap.rungs_subset h))
    · exact hleaf (List.mem_singleton.mp h ▸ List.mem_cons_self)

theorem view_revise {change : Attributes → Attributes} (effect : View → View)
    (he : ∀ node : Node, ({ node with toAttributes := change node.toAttributes, pending := true } : Node).view =
      effect node.view) (hlt : id < store.size) :
    (store.revise id change).view new = if new = id then effect (store.view new) else store.view new := by
  rw [view, revise, node_update]
  by_cases h : new = id
  · rw [if_pos ⟨h, hlt⟩, if_pos h]
    exact he _
  · rw [if_neg fun hne => h hne.1, if_neg h]
    rfl

theorem view_reviseAll {ids : Option Nat} {change : Attributes → Attributes} (effect : View → View)
    (he : ∀ node : Node, ({ node with toAttributes := change node.toAttributes, pending := true } : Node).view =
      effect node.view) (hlt : ∀ id ∈ ids, id < store.size) :
    (store.reviseAll ids change).view new = if new ∈ ids then effect (store.view new) else store.view new := by
  cases ids with
  | none => exact (if_neg nofun).symm
  | some id =>
      refine (view_revise effect he (hlt id rfl)).trans ?_
      by_cases h : new = id
      · rw [if_pos h, if_pos (show new ∈ some id from h ▸ rfl)]
      · rw [if_neg h, if_neg (show new ∉ some id from fun hmem => h (Option.some_inj.mp hmem).symm)]

theorem position?_eq (hc : (store.view parent).children = before ++ anchor :: after) (hnot : anchor ∉ before) :
    store.position? parent anchor = some before.length := by
  have hnone : List.findIdx? (· == anchor) before = none := by
    refine List.findIdx?_eq_none_iff.mpr fun id h => ?_
    exact beq_false_of_ne fun he => hnot (he ▸ h)
  rw [position?, show (store.node parent).children = before ++ anchor :: after from hc, List.idxOf?,
    List.findIdx?_append, hnone, List.findIdx?_cons]
  simp

@[simp] theorem view_setDeleted {deleted : Bool} : (store.setDeleted id deleted).view new = store.view new :=
  view_update_of_view fun _ => rfl

@[simp] theorem size_setDeleted {deleted : Bool} : (store.setDeleted id deleted).size = store.size := size_update _

@[simp] theorem view_threadIn : (store.threadIn anchor new).view id = store.view id := by
  unfold threadIn
  split
  · simp
  · rfl

@[simp] theorem size_threadIn : (store.threadIn anchor new).size = store.size := by
  unfold threadIn
  split
  · simp
  · rfl

@[simp] theorem view_threadOut : (store.threadOut anchor).view id = store.view id := by
  unfold threadOut
  split
  · simp
  · rfl

@[simp] theorem size_threadOut : (store.threadOut anchor).size = store.size := by
  unfold threadOut
  split
  · simp
  · rfl

-- What becomes of the views when a child is put in.
theorem insertAfter?_spec (hc : (store.view parent).children = before ++ anchor :: after) (hnot : anchor ∉ before)
    (hright : (store.view anchor).right = after.head?) (hn : (parent :: new :: anchor :: after).Nodup)
    (hlt : ∀ id ∈ parent :: new :: anchor :: after, id < store.size) :
    ∃ result, store.insertAfter? parent anchor new = some result ∧ result.size = store.size ∧
      result.view parent = { store.view parent with children := before ++ anchor :: new :: after } ∧
      result.view new =
        { store.view new with parent := some parent, left := some anchor, right := after.head? } ∧
      result.view anchor = { store.view anchor with right := some new } ∧
      (∀ first ∈ after.head?, result.view first = { store.view first with left := some new }) ∧
      ∀ id, id ∉ parent :: new :: anchor :: after.head?.toList → result.view id = store.view id := by
  have hinsert : (before ++ anchor :: after).insertIdx (before.length + 1) new = before ++ anchor :: new :: after := by
    clear hc hnot
    induction before with
    | nil => rfl
    | cons first rest ih => exact congrArg (first :: ·) ih
  obtain ⟨hparent, hnew, hanchor, hafter⟩ : parent < store.size ∧ new < store.size ∧ anchor < store.size ∧
      ∀ id ∈ after.head?, id < store.size := by
    simp only [List.forall_mem_cons] at hlt
    exact ⟨hlt.1, hlt.2.1, hlt.2.2.1, fun id h => hlt.2.2.2 id (List.mem_of_mem_head? h)⟩
  -- the views one revision after the other
  have hviews : ∀ result, store.insertAfter? parent anchor new = some result → ∀ id, result.view id =
      let view := store.view id
      let view := if id = parent then
        { view with children := view.children.insertIdx (before.length + 1) new } else view
      let view := if id = new then
        { view with parent := some parent, left := some anchor, right := after.head? } else view
      let view := if id = anchor then { view with right := some new } else view
      if id ∈ after.head? then { view with left := some new } else view := by
    intro result h id
    rw [insertAfter?, position?_eq hc hnot] at h
    obtain rfl := Option.some_inj.mp h
    dsimp only
    rw [view_threadIn, show (store.node anchor).right = after.head? from hright,
      view_reviseAll (fun view => { view with left := some new }) (fun _ => rfl) (by simpa using hafter),
      view_revise (fun view => { view with right := some new }) (fun _ => rfl) (by simpa using hanchor),
      view_setDeleted,
      view_revise (fun view => { view with parent := some parent, left := some anchor, right := after.head? })
        (fun _ => rfl) (by simpa using hnew),
      view_revise (fun view => { view with children := view.children.insertIdx (before.length + 1) new })
        (fun _ => rfl) hparent]
  obtain ⟨result, hresult⟩ : ∃ result, store.insertAfter? parent anchor new = some result := by
    rw [insertAfter?, position?_eq hc hnot]
    exact ⟨_, rfl⟩
  have hsize : result.size = store.size := by
    rw [insertAfter?, position?_eq hc hnot] at hresult
    obtain rfl := Option.some_inj.mp hresult
    simp
  replace hviews := hviews result hresult
  dsimp only at hviews
  have hhead : ∀ first ∈ after.head?, first ∈ after := fun first h => List.mem_of_mem_head? h
  simp only [List.nodup_cons, List.mem_cons, not_or] at hn
  obtain ⟨⟨hpn, hpa, hpafter⟩, ⟨hna, hnafter⟩, haafter, -⟩ := hn
  refine ⟨result, hresult, hsize, ?_, ?_, ?_, fun first h => ?_, fun id h => ?_⟩
  · rw [hviews, if_pos rfl, if_neg hpn, if_neg hpa, if_neg fun h => hpafter (hhead _ h), hc, hinsert]
  · rw [hviews, if_neg (Ne.symm hpn), if_pos rfl, if_neg hna, if_neg fun h => hnafter (hhead _ h)]
  · rw [hviews, if_neg (Ne.symm hpa), if_neg (Ne.symm hna), if_pos rfl, if_neg fun h => haafter (hhead _ h)]
  · have hmem := hhead first h
    have hp : first ≠ parent := fun he => hpafter (he ▸ hmem)
    have hn : first ≠ new := fun he => hnafter (he ▸ hmem)
    have ha : first ≠ anchor := fun he => haafter (he ▸ hmem)
    rw [hviews, if_neg hp, if_neg hn, if_neg ha, if_pos h]
  · simp only [List.mem_cons, not_or, Option.mem_toList] at h
    obtain ⟨hp, hn, ha, hf⟩ := h
    rw [hviews, if_neg hp, if_neg hn, if_neg ha, if_neg (show id ∉ after.head? from hf)]

-- What becomes of the views when a child is taken out.
theorem removeChild?_spec (hc : (store.view parent).children = before ++ anchor :: after) (hnot : anchor ∉ before)
    (hleft : (store.view anchor).left = before.getLast?) (hright : (store.view anchor).right = after.head?)
    (hn : (parent :: (before ++ anchor :: after)).Nodup)
    (hlt : ∀ id ∈ parent :: (before ++ anchor :: after), id < store.size) :
    ∃ result, store.removeChild? parent anchor = some result ∧ result.size = store.size ∧
      result.view parent = { store.view parent with children := before ++ after } ∧
      (∀ last ∈ before.getLast?, result.view last = { store.view last with right := after.head? }) ∧
      (∀ first ∈ after.head?, result.view first = { store.view first with left := before.getLast? }) ∧
      ∀ id, id ∉ parent :: (before.getLast?.toList ++ after.head?.toList) → result.view id = store.view id := by
  have herase : (before ++ anchor :: after).eraseIdx before.length = before ++ after := by
    clear hc hnot hleft hn hlt
    induction before with
    | nil => rfl
    | cons first rest ih => exact congrArg (first :: ·) ih
  obtain ⟨hparent, hothers⟩ := List.forall_mem_cons.mp hlt
  have hlast : ∀ last ∈ before.getLast?, last ∈ before := fun last h => List.mem_of_getLast? h
  have hfirst : ∀ first ∈ after.head?, first ∈ after := fun first h => List.mem_of_mem_head? h
  have hlastlt : ∀ last ∈ before.getLast?, last < store.size :=
    fun last h => hothers last (List.mem_append_left _ (hlast last h))
  have hfirstlt : ∀ first ∈ after.head?, first < store.size :=
    fun first h => hothers first (List.mem_append_right _ (List.mem_cons_of_mem _ (hfirst first h)))
  have hne : parent ≠ anchor := by
    rintro rfl
    exact (List.nodup_cons.mp hn).1 (List.mem_append_right _ List.mem_cons_self)
  -- the links of the child are read after its parent has been revised
  have hsame : ∀ change : Attributes → Attributes, (store.revise parent change).node anchor = store.node anchor :=
    fun change => node_update_ne _ (Ne.symm hne)
  have hviews : ∀ result, store.removeChild? parent anchor = some result → result.size = store.size ∧
      ∀ id, result.view id =
        let view := store.view id
        let view := if id = parent then { view with children := view.children.eraseIdx before.length } else view
        let view := if id ∈ before.getLast? then { view with right := after.head? } else view
        if id ∈ after.head? then { view with left := before.getLast? } else view := by
    intro result h
    rw [removeChild?, position?_eq hc hnot] at h
    obtain rfl := Option.some_inj.mp h
    refine ⟨by simp, fun id => ?_⟩
    dsimp only
    rw [hsame, show (store.node anchor).left = before.getLast? from hleft,
      show (store.node anchor).right = after.head? from hright, view_threadOut, view_setDeleted,
      view_reviseAll (fun view => { view with left := before.getLast? }) (fun _ => rfl) (by simpa using hfirstlt),
      view_reviseAll (fun view => { view with right := after.head? }) (fun _ => rfl) (by simpa using hlastlt),
      view_revise (fun view => { view with children := view.children.eraseIdx before.length }) (fun _ => rfl) hparent]
  obtain ⟨result, hresult⟩ : ∃ result, store.removeChild? parent anchor = some result := by
    rw [removeChild?, position?_eq hc hnot]
    exact ⟨_, rfl⟩
  obtain ⟨hsize, hviews⟩ := hviews result hresult
  dsimp only at hviews
  obtain ⟨hpnot, hnodup⟩ := List.nodup_cons.mp hn
  obtain ⟨-, -, hapart⟩ := List.nodup_append.mp hnodup
  refine ⟨result, hresult, hsize, ?_, fun last h => ?_, fun first h => ?_, fun id h => ?_⟩
  · rw [hviews, if_pos rfl, if_neg fun h => hpnot (List.mem_append_left _ (hlast _ h)), if_neg fun h => hpnot ?_, hc,
      herase]
    exact List.mem_append_right _ (List.mem_cons_of_mem _ (hfirst _ h))
  · have hlp : last ≠ parent := by
      rintro rfl
      exact hpnot (List.mem_append_left _ (hlast _ h))
    rw [hviews, if_neg hlp, if_pos h, if_neg fun hmem => ?_]
    exact hapart last (hlast _ h) last (List.mem_cons_of_mem _ (hfirst _ hmem)) rfl
  · have hfp : first ≠ parent := by
      rintro rfl
      exact hpnot (List.mem_append_right _ (List.mem_cons_of_mem _ (hfirst _ h)))
    have hfl : first ∉ before.getLast? := fun hmem =>
      hapart first (hlast _ hmem) first (List.mem_cons_of_mem _ (hfirst _ h)) rfl
    rw [hviews, if_neg hfp, if_neg hfl, if_pos h]
  · rw [List.mem_cons, List.mem_append, not_or, not_or, Option.mem_toList, Option.mem_toList] at h
    obtain ⟨hp, hl, hf⟩ := h
    rw [hviews, if_neg hp, if_neg (show id ∉ before.getLast? from hl), if_neg (show id ∉ after.head? from hf)]

end Store

end IncrementalLR
