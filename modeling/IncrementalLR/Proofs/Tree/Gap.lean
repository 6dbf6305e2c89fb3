import IncrementalLR.Proofs.Tree.Linked

namespace IncrementalLR

namespace Store

-- Whether nodes are the children of a parent one behind the other, between two
-- neighbours.
def Chain (store : Store) (parent : Nat) : Option Nat → Option Nat → List Nat → Prop
  | _, _, [] => True
  | left, right, id :: rest =>
      (store.view id).parent = some parent ∧ (store.view id).left = left ∧
        (store.view id).right = rest.head?.or right ∧ store.Chain parent (some id) right rest

variable {store other : Store} {parent id : Nat} {left right : Option Nat} {forest : Forest}
  {ids rest : List Nat}

theorem linked_iff_chain :
    store.Linked parent left forest ↔ store.Kept forest ∧ store.Chain parent left none forest.roots := by
  induction forest using Forest.spine_induction generalizing left with
  | nil => exact ⟨fun _ => ⟨trivial, trivial⟩, fun _ => trivial⟩
  | before tree after ih =>
      rw [linked_before, kept_before, ih, Tree.roots_before, Chain, Option.or_none]
      constructor
      · rintro ⟨hh, hparent, hleft, hright, hk, hc⟩
        exact ⟨⟨hh, hk⟩, hparent, hleft, hright, hc⟩
      · rintro ⟨⟨hh, hk⟩, hparent, hleft, hright, hc⟩
        exact ⟨hh, hparent, hleft, hright, hk, hc⟩

theorem chain_append :
    store.Chain parent left right (ids ++ rest) ↔
      store.Chain parent left (rest.head?.or right) ids ∧
        store.Chain parent (ids.getLast?.or left) right rest := by
  induction ids generalizing left with
  | nil => exact (and_iff_right trivial).symm
  | cons id others ih =>
      have hlast : (id :: others).getLast?.or left = others.getLast?.or (some id) := by
        rw [List.getLast?_cons]
        cases others.getLast? <;> rfl
      rw [List.cons_append, Chain, Chain, ih, hlast, List.head?_append, Option.or_assoc]
      simp only [and_assoc]

-- The children of a node are linked to it and to one another.
theorem Linked.children (hl : store.Linked parent left forest) (h : id ∈ forest.ids) :
    store.Chain id none none (store.view id).children ∧ (store.view id).children ⊆ forest.ids := by
  induction forest generalizing parent left with
  | nil => cases h
  | leaf first label after ih =>
      obtain ⟨hview, -, hafter⟩ := hl
      rcases List.mem_cons.mp h with rfl | h
      · rw [hview]
        exact ⟨trivial, List.nil_subset _⟩
      · exact (ih hafter h).imp_right (List.subset_cons_of_subset _)
  | node first symbol changed below after ihbelow ih =>
      obtain ⟨hview, -, hbelow, hafter⟩ := hl
      rcases List.mem_cons.mp h with rfl | h
      · rw [hview]
        refine ⟨(linked_iff_chain.mp hbelow).2, fun id h => ?_⟩
        exact List.mem_cons_of_mem _ (List.mem_append_left _ (Forest.mem_ids_of_roots h))
      · rcases List.mem_append.mp h with h | h
        · exact (ihbelow hbelow h).imp_right fun hsub id hid =>
            List.mem_cons_of_mem _ (List.mem_append_left _ (hsub hid))
        · exact (ih hafter h).imp_right fun hsub id hid => List.mem_cons_of_mem _ (List.mem_append_right _ (hsub hid))

-- Whether a node stands where it stood.
def SamePlace (store other : Store) (id : Nat) : Prop :=
  (other.view id).parent = (store.view id).parent ∧ (other.view id).left = (store.view id).left ∧
    (other.view id).right = (store.view id).right

theorem SamePlace.of_view (h : other.view id = store.view id) : store.SamePlace other id := by
  rw [SamePlace, h]
  exact ⟨rfl, rfl, rfl⟩

theorem SamePlace.of_parsed (h : (other.view id).parsed = (store.view id).parsed) : store.SamePlace other id :=
  ⟨show (other.view id).parsed.parent = _ by rw [h]; rfl, show (other.view id).parsed.left = _ by rw [h]; rfl,
    show (other.view id).parsed.right = _ by rw [h]; rfl⟩

theorem Chain.congr (hc : store.Chain parent left right ids) (hv : ∀ id ∈ ids, store.SamePlace other id) :
    other.Chain parent left right ids := by
  induction ids generalizing left with
  | nil => trivial
  | cons id rest ih =>
      obtain ⟨hsame, hrest⟩ := List.forall_mem_cons.mp hv
      obtain ⟨hparent, hleft, hright, hc⟩ := hc
      exact ⟨hsame.1.trans hparent, hsame.2.1.trans hleft, hsame.2.2.trans hright, ih hc hrest⟩

theorem Chain.parent_mem (hc : store.Chain parent left right ids) (h : id ∈ ids) :
    (store.view id).parent = some parent := by
  induction ids generalizing left with
  | nil => cases h
  | cons first rest ih =>
      rcases List.mem_cons.mp h with rfl | h
      · exact hc.1
      · exact ih hc.2.2.2 h

-- Trees stay as they are while their roots keep label and children, and nothing
-- below them changes.
theorem Kept.congr_below (hk : store.Kept forest) (hn : forest.ids.Nodup)
    (hroots : ∀ id ∈ forest.roots, (other.view id).label = (store.view id).label ∧
      (other.view id).children = (store.view id).children)
    (hv : ∀ id ∈ forest.ids, id ∉ forest.roots → other.view id = store.view id) : other.Kept forest := by
  induction forest using Forest.spine_induction with
  | nil => trivial
  | before tree after ih =>
      rw [Tree.ids_before] at hn hv
      rw [Tree.roots_before] at hroots hv
      obtain ⟨hh, hafter⟩ := kept_before.mp hk
      obtain ⟨hfirst, hrest⟩ := List.forall_mem_cons.mp hroots
      obtain ⟨htree, hnodup, hapart⟩ := List.nodup_append.mp hn
      refine kept_before.mpr ⟨hh.congr hfirst.1 hfirst.2 (fun id h hne => hv id ?_ ?_) htree, ih hafter hnodup hrest ?_⟩
      · exact List.mem_append_left _ h
      · intro hmem
        rcases List.mem_cons.mp hmem with he | hmem
        · exact hne he
        · exact hapart id h id (Forest.mem_ids_of_roots hmem) rfl
      · intro id h hne
        refine hv id (List.mem_append_right _ h) fun hmem => ?_
        rcases List.mem_cons.mp hmem with rfl | hmem
        · exact hapart _ Tree.id_mem_ids _ h rfl
        · exact hne hmem

end Store

-- A forest with a gap among the siblings on some level, from the inside out.
inductive Gap where
  | top (before after : Forest)
  | inside (outer : Gap) (id : Nat) (symbol : Symbol) (changed : Bool) (before after : Forest)

namespace Gap

def before : Gap → Forest
  | top before _ | inside _ _ _ _ before _ => before

def after : Gap → Forest
  | top _ after | inside _ _ _ _ _ after => after

def fill : Gap → Forest → Forest
  | top before after, forest => before ++ (forest ++ after)
  | inside outer id symbol changed before after, forest =>
      outer.fill (.node id symbol changed (before ++ (forest ++ after)) .nil)

-- The gap within what another one is filled with.
def inner (outer : Gap) : Gap → Gap
  | top before after =>
      match outer with
      | top first last => top (first ++ before) (after ++ last)
      | inside outer id symbol changed first last =>
          inside outer id symbol changed (first ++ before) (after ++ last)
  | inside gap id symbol changed before after => inside (outer.inner gap) id symbol changed before after

-- The nodes around a gap.
def ids : Gap → List Nat
  | top before after => before.ids ++ after.ids
  | inside outer id _ _ before after => id :: (before.ids ++ after.ids ++ outer.ids)

-- The leaves before a gap and behind it.
def leading : Gap → List (Nat × Label)
  | top before _ => before.leaves
  | inside outer _ _ _ before _ => outer.leading ++ before.leaves

def trailing : Gap → List (Nat × Label)
  | top _ after => after.leaves
  | inside outer _ _ _ _ after => after.leaves ++ outer.trailing

-- The nodes above a gap, without the root.
def rungs : Gap → List Nat
  | top _ _ => []
  | inside outer id _ _ _ _ => id :: outer.rungs

def parent (root : Nat) : Gap → Nat
  | top _ _ => root
  | inside _ id _ _ _ _ => id

-- The gap with all nodes above it flagged.
def flag : Gap → Gap
  | top before after => top before after
  | inside outer id symbol _ before after => inside outer.flag id symbol true before after

-- The children of the parent, with those that fill the gap.
def siblings (gap : Gap) (roots : List Nat) : List Nat := gap.before.roots ++ (roots ++ gap.after.roots)

-- Whether all nodes above are flagged, and those above a flagged one.
def Flagged : Gap → Prop
  | top _ _ => True
  | inside outer _ _ changed _ _ => changed = true ∧ outer.Flagged

def Calm : Gap → Prop
  | top _ _ => True
  | inside outer _ _ changed _ _ => (changed = true → outer.Flagged) ∧ outer.Calm

variable {gap outer : Gap} {forest other : Forest} {id root : Nat}

theorem fill_inner : (outer.inner gap).fill forest = outer.fill (gap.fill forest) := by
  induction gap generalizing forest with
  | top before after =>
      cases outer with
      | top first last => simp only [inner, fill, Forest.append_assoc]
      | inside outer id symbol changed first last => simp only [inner, fill, Forest.append_assoc]
  | inside gap id symbol changed before after ih => exact ih

theorem flag_inner : (outer.inner gap).flag = outer.flag.inner gap.flag := by
  induction gap with
  | top before after =>
      cases outer with
      | top first last => rfl
      | inside outer id symbol changed first last => rfl
  | inside gap id symbol changed before after ih => simp only [inner, flag, ih]

theorem flag_of_flagged (h : gap.Flagged) : gap.flag = gap := by
  induction gap with
  | top before after => rfl
  | inside outer id symbol changed before after ih =>
      obtain ⟨rfl, h⟩ := h
      rw [flag, ih h]

theorem rungs_subset : gap.rungs ⊆ gap.ids := by
  induction gap with
  | top before after => exact List.nil_subset _
  | inside outer id symbol changed before after ih =>
      exact List.cons_subset_cons _ fun id h => List.mem_append_right _ (ih h)

theorem rungs_sublist : gap.rungs.Sublist gap.ids := by
  induction gap with
  | top before after => exact List.nil_sublist _
  | inside outer id symbol changed before after ih => exact (ih.trans (List.sublist_append_right _ _)).cons_cons _

@[simp] theorem parent_flag : gap.flag.parent root = gap.parent root := by
  cases gap <;> rfl

@[simp] theorem ids_flag : gap.flag.ids = gap.ids := by
  induction gap with
  | top before after => rfl
  | inside outer id symbol changed before after ih => rw [flag, ids, ids, ih]

theorem ids_fill : (gap.fill forest).ids.Perm (forest.ids ++ gap.ids) := by
  induction gap generalizing forest with
  | top before after =>
      rw [fill, ids, Forest.ids_append, Forest.ids_append, ← List.append_assoc, ← List.append_assoc]
      exact List.perm_append_comm.append_right _
  | inside outer id symbol changed before after ih =>
      refine ih.trans ?_
      simp only [Forest.ids, Forest.ids_append, ids, List.append_nil, List.cons_append]
      refine List.Perm.trans ?_ List.perm_middle.symm
      refine List.Perm.cons _ ?_
      simp only [← List.append_assoc]
      exact (List.perm_append_comm.append_right _).append_right _

-- The leaves around a gap stay where they are.
theorem leaves_fill : (gap.fill forest).leaves = gap.leading ++ (forest.leaves ++ gap.trailing) := by
  induction gap generalizing forest with
  | top before after => simp [fill, leading, trailing]
  | inside outer id symbol changed before after ih => simp [fill, leading, trailing, ih, Forest.leaves]

theorem leading_inner : (outer.inner gap).leading = outer.leading ++ gap.leading := by
  induction gap with
  | top before after =>
      cases outer with
      | top first last => exact Forest.leaves_append
      | inside outer id symbol changed first last => rw [inner, leading, leading, leading, Forest.leaves_append, List.append_assoc]
  | inside gap id symbol changed before after ih => rw [inner, leading, leading, ih, List.append_assoc]

theorem leaves_flag : gap.flag.leading = gap.leading ∧ gap.flag.trailing = gap.trailing := by
  induction gap with
  | top before after => exact ⟨rfl, rfl⟩
  | inside outer id symbol changed before after ih => simp only [flag, leading, trailing, ih, and_self]

theorem exists_leaves (gap : Gap) :
    ∃ first last, ∀ forest : Forest, (gap.fill forest).leaves = first ++ (forest.leaves ++ last) ∧
      (gap.flag.fill forest).leaves = first ++ (forest.leaves ++ last) :=
  ⟨gap.leading, gap.trailing, fun _ => ⟨leaves_fill, by rw [leaves_fill, leaves_flag.1, leaves_flag.2]⟩⟩

-- Each leaf fills a gap.
theorem exists_fill {entry : Nat × Label} (h : entry ∈ forest.leaves) :
    ∃ gap : Gap, forest = gap.fill (.leaf entry.1 entry.2 .nil) := by
  induction forest with
  | nil => cases h
  | leaf id label after ih =>
      rcases List.mem_cons.mp h with rfl | h
      · exact ⟨.top .nil after, rfl⟩
      · obtain ⟨gap, hgap⟩ := ih h
        refine ⟨(top (.leaf id label .nil) .nil).inner gap, ?_⟩
        rw [fill_inner, ← hgap, fill, Forest.append_nil]
        rfl
  | node id symbol changed below after ihbelow ih =>
      rcases List.mem_append.mp h with h | h
      · obtain ⟨gap, hgap⟩ := ihbelow h
        refine ⟨(inside (.top .nil after) id symbol changed .nil .nil).inner gap, ?_⟩
        rw [fill_inner, ← hgap]
        simp only [fill, Forest.append_nil, Forest.nil_append, Forest.node_append]
      · obtain ⟨gap, hgap⟩ := ih h
        refine ⟨(top (.node id symbol changed below .nil) .nil).inner gap, ?_⟩
        rw [fill_inner, ← hgap, fill, Forest.append_nil]
        rfl

-- Each subtree fills a gap.
theorem exists_subtree (h : id ∈ forest.ids) : ∃ (gap : Gap) (tree : Tree), tree.id = id ∧ forest = gap.fill tree.forest := by
  induction forest with
  | nil => cases h
  | leaf first label after ih =>
      rcases List.mem_cons.mp h with rfl | h
      · exact ⟨.top .nil after, .leaf id label, rfl, rfl⟩
      · obtain ⟨gap, tree, htree, hgap⟩ := ih h
        refine ⟨(top (.leaf first label .nil) .nil).inner gap, tree, htree, ?_⟩
        rw [fill_inner, ← hgap, fill, Forest.append_nil]
        rfl
  | node first symbol changed below after ihbelow ih =>
      rcases List.mem_cons.mp h with rfl | h
      · exact ⟨.top .nil after, .node id symbol changed below, rfl, rfl⟩
      · rcases List.mem_append.mp h with h | h
        · obtain ⟨gap, tree, htree, hgap⟩ := ihbelow h
          refine ⟨(inside (.top .nil after) first symbol changed .nil .nil).inner gap, tree, htree, ?_⟩
          rw [fill_inner, ← hgap]
          simp only [fill, Forest.append_nil, Forest.nil_append, Forest.node_append]
        · obtain ⟨gap, tree, htree, hgap⟩ := ih h
          refine ⟨(top (.node first symbol changed below .nil) .nil).inner gap, tree, htree, ?_⟩
          rw [fill_inner, ← hgap, fill, Forest.append_nil]
          rfl

end Gap

namespace Store

-- Whether a store holds what is around a gap, when it is filled with trees of
-- certain roots.
def Surrounds (store : Store) (root : Nat) : Gap → List Nat → Prop
  | .top before after, roots =>
      store.Kept before ∧ store.Kept after ∧ store.Chain root none none (before.roots ++ (roots ++ after.roots))
  | .inside outer id symbol changed before after, roots =>
      store.Kept before ∧ store.Kept after ∧ store.Chain id none none (before.roots ++ (roots ++ after.roots)) ∧
        (store.view id).label = ⟨symbol, none, "", changed⟩ ∧
        (store.view id).children = before.roots ++ (roots ++ after.roots) ∧
        symbol.isNonterminal = true ∧ store.Surrounds root outer [id]

variable {store other : Store} {root id : Nat} {gap : Gap} {forest : Forest} {roots filled : List Nat}

theorem linked_fill :
    store.Linked root none (gap.fill forest) ↔ store.Surrounds root gap forest.roots ∧ store.Kept forest := by
  induction gap generalizing forest with
  | top before after =>
      rw [Gap.fill, linked_iff_chain, kept_append, kept_append, Forest.roots_append, Forest.roots_append, Surrounds]
      constructor
      · rintro ⟨⟨hbefore, hforest, hafter⟩, hc⟩
        exact ⟨⟨hbefore, hafter, hc⟩, hforest⟩
      · rintro ⟨⟨hbefore, hafter, hc⟩, hforest⟩
        exact ⟨⟨hbefore, hforest, hafter⟩, hc⟩
  | inside outer id symbol changed before after ih =>
      rw [Gap.fill, ih, Surrounds, Kept, Holds, linked_iff_chain, kept_append, kept_append, Forest.roots_append,
        Forest.roots_append]
      constructor
      · rintro ⟨houter, ⟨hlabel, hchildren, hsymbol, ⟨hbefore, hforest, hafter⟩, hc⟩, -⟩
        exact ⟨⟨hbefore, hafter, hc, hlabel, hchildren, hsymbol, houter⟩, hforest⟩
      · rintro ⟨⟨hbefore, hafter, hc, hlabel, hchildren, hsymbol, houter⟩, hforest⟩
        exact ⟨houter, ⟨hlabel, hchildren, hsymbol, ⟨hbefore, hforest, hafter⟩, hc⟩, trivial⟩

namespace Surrounds

theorem chain (hs : store.Surrounds root gap roots) :
    store.Chain (gap.parent root) none none (gap.siblings roots) := by
  cases gap with
  | top before after => exact hs.2.2
  | inside outer id symbol changed before after => exact hs.2.2.1

theorem congr (hs : store.Surrounds root gap roots) (hn : gap.ids.Nodup)
    (hroots : ∀ id ∈ roots, store.SamePlace other id) (hv : ∀ id ∈ gap.ids, other.view id = store.view id) :
    other.Surrounds root gap roots := by
  have hsiblings : ∀ {before after : Forest} {roots : List Nat}, (∀ id ∈ roots, store.SamePlace other id) →
      (∀ id ∈ before.ids ++ after.ids, other.view id = store.view id) →
      ∀ id ∈ before.roots ++ (roots ++ after.roots), store.SamePlace other id := by
    intro before after roots hroots h id hid
    rw [List.mem_append, List.mem_append] at hid
    rcases hid with hid | hid | hid
    · exact .of_view (h id (List.mem_append_left _ (Forest.mem_ids_of_roots hid)))
    · exact hroots id hid
    · exact .of_view (h id (List.mem_append_right _ (Forest.mem_ids_of_roots hid)))
  induction gap generalizing roots with
  | top before after =>
      obtain ⟨hbefore, hafter, hc⟩ := hs
      obtain ⟨hnbefore, hnafter, -⟩ := List.nodup_append.mp hn
      exact ⟨hbefore.congr hnbefore fun id h => hv id (List.mem_append_left _ h),
        hafter.congr hnafter fun id h => hv id (List.mem_append_right _ h), hc.congr (hsiblings hroots hv)⟩
  | inside outer id symbol changed before after ih =>
      obtain ⟨hbefore, hafter, hc, hlabel, hchildren, hsymbol, houter⟩ := hs
      rw [Gap.ids, List.nodup_cons, List.nodup_append] at hn
      obtain ⟨-, hinner, hnouter, -⟩ := hn
      obtain ⟨hnbefore, hnafter, -⟩ := List.nodup_append.mp hinner
      obtain ⟨hself, hothers⟩ := List.forall_mem_cons.mp hv
      obtain ⟨hnear, hfar⟩ := List.forall_mem_append.mp hothers
      refine ⟨hbefore.congr hnbefore fun id h => hnear id (List.mem_append_left _ h),
        hafter.congr hnafter fun id h => hnear id (List.mem_append_right _ h), hc.congr (hsiblings hroots hnear),
        hself ▸ hlabel, hself ▸ hchildren, hsymbol, ?_⟩
      exact ih houter hnouter (List.forall_mem_singleton.mpr (.of_view hself)) hfar

end Surrounds

end Store

-- Whether something holds of all nodes without a flag, as far as these are no leaves, and
-- of what is below them.
def Forest.Throughout (holds : Nat → Symbol → Forest → Prop) : Forest → Prop
  | nil => True
  | leaf _ _ after => after.Throughout holds
  | node id symbol changed below after =>
      (changed = false → holds id symbol below) ∧ below.Throughout holds ∧ after.Throughout holds

namespace Forest

variable {holds wanted : Nat → Symbol → Forest → Prop} {forest other : Forest} {entries : List (Nat × Label)}

@[simp] theorem throughout_append :
    (forest ++ other).Throughout holds ↔ forest.Throughout holds ∧ other.Throughout holds := by
  induction forest with
  | nil => simp [Throughout]
  | leaf id label after ih => simp [Throughout, ih]
  | node id symbol changed below after _ ih => simp [Throughout, ih, and_assoc]

@[simp] theorem throughout_ofLeaves : (ofLeaves entries).Throughout holds := by
  induction entries with
  | nil => trivial
  | cons entry rest ih => exact ih

-- Only nodes of the forest matter.
theorem Throughout.imp (hf : forest.Throughout holds)
    (h : ∀ id symbol below, id ∈ forest.ids → below.ids ⊆ forest.ids → holds id symbol below → wanted id symbol below) :
    forest.Throughout wanted := by
  induction forest with
  | nil => trivial
  | leaf first label after ih =>
      exact ih hf fun id symbol below hid hbelow =>
        h id symbol below (List.mem_cons_of_mem _ hid) (List.subset_cons_of_subset _ hbelow)
  | node first symbol changed below after ihbelow ih =>
      obtain ⟨hfirst, hbelow, hafter⟩ := hf
      have hinside : below.ids ⊆ (Forest.node first symbol changed below after).ids :=
        List.subset_cons_of_subset _ (List.subset_append_left _ _)
      have hbehind : after.ids ⊆ (Forest.node first symbol changed below after).ids :=
        List.subset_cons_of_subset _ (List.subset_append_right _ _)
      refine ⟨fun hchanged => h _ _ _ List.mem_cons_self hinside (hfirst hchanged), ihbelow hbelow ?_, ih hafter ?_⟩
      · exact fun id symbol inner hid hinner => h id symbol inner (hinside hid) (List.Subset.trans hinner hinside)
      · exact fun id symbol inner hid hinner => h id symbol inner (hbehind hid) (List.Subset.trans hinner hbehind)

theorem Throughout.and (hf : forest.Throughout holds) (ho : forest.Throughout wanted) :
    forest.Throughout fun id symbol below => holds id symbol below ∧ wanted id symbol below := by
  induction forest with
  | nil => trivial
  | leaf first label after ih => exact ih hf ho
  | node first symbol changed below after ihbelow ih =>
      exact ⟨fun hchanged => ⟨hf.1 hchanged, ho.1 hchanged⟩, ihbelow hf.2.1 ho.2.1, ih hf.2.2 ho.2.2⟩

end Forest

theorem Store.Kept.throughout {store : Store} {forest : Forest} (hk : store.Kept forest) :
    forest.Throughout fun id symbol below => store.Holds (.node id symbol false below) := by
  induction forest with
  | nil => trivial
  | leaf first label after ih => exact ih hk.2
  | node first symbol changed below after ihbelow ih =>
      refine ⟨fun hchanged => ?_, ihbelow hk.1.2.2.2.kept, ih hk.2⟩
      obtain rfl := hchanged
      exact hk.1

namespace Gap

variable {holds : Nat → Symbol → Forest → Prop} {gap : Gap} {forest filling : Forest}

theorem throughout_fill (h : (gap.fill forest).Throughout holds) : forest.Throughout holds := by
  induction gap generalizing forest with
  | top before after => exact (Forest.throughout_append.mp (Forest.throughout_append.mp h).2).1
  | inside outer id symbol changed before after ih =>
      exact (Forest.throughout_append.mp (Forest.throughout_append.mp (ih h).2.1).2).1

-- With all nodes above it flagged, a gap may be filled with anything that has the same.
theorem throughout_flag (h : (gap.fill forest).Throughout holds) (hf : filling.Throughout holds) :
    (gap.flag.fill filling).Throughout holds := by
  induction gap generalizing forest filling with
  | top before after =>
      obtain ⟨hbefore, hrest⟩ := Forest.throughout_append.mp h
      exact Forest.throughout_append.mpr ⟨hbefore, Forest.throughout_append.mpr
        ⟨hf, (Forest.throughout_append.mp hrest).2⟩⟩
  | inside outer id symbol changed before after ih =>
      have hnode : Forest.Throughout holds (.node id symbol changed (before ++ (forest ++ after)) .nil) := throughout_fill h
      obtain ⟨-, hbelow, -⟩ := hnode
      obtain ⟨hbefore, hrest⟩ := Forest.throughout_append.mp hbelow
      refine ih h ⟨nofun, Forest.throughout_append.mpr ⟨hbefore, Forest.throughout_append.mpr ⟨hf, ?_⟩⟩, trivial⟩
      exact (Forest.throughout_append.mp hrest).2

end Gap

end IncrementalLR
