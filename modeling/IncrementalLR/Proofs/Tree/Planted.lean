import IncrementalLR.Proofs.Tree.Division
import IncrementalLR.Proofs.Tree.Editing

namespace IncrementalLR

namespace Forest

theorem roots_sublist {forest : Forest} : forest.roots.Sublist forest.ids := by
  induction forest with
  | nil => exact List.Sublist.refl _
  | leaf id label after ih => exact ih.cons_cons id
  | node id symbol changed below after _ ih => exact (ih.trans (List.sublist_append_right _ _)).cons_cons id

end Forest

namespace Gap

variable {gap : Gap} {forest other : Forest} {root : Nat}

-- The trees next to a gap are apart from the node above them.
theorem near_sublist :
    (gap.parent root :: (gap.before.ids ++ gap.after.ids)).Sublist (root :: gap.ids) := by
  cases gap with
  | top before after => exact List.Sublist.refl _
  | inside outer id symbol changed before after =>
      exact ((List.sublist_append_left _ _).cons_cons id).cons root

-- The root of a tree in a gap, its siblings and the node above them.
theorem row_sublist {tree : Tree} :
    ((gap.parent root :: (gap.before.roots ++ gap.after.roots)) ++ [tree.id]).Sublist
      (root :: (gap.ids ++ tree.forest.ids)) := by
  rw [← List.cons_append (a := root)]
  refine List.Sublist.append (List.Sublist.trans ?_ near_sublist) (List.singleton_sublist.mpr tree.id_mem_ids)
  exact (Forest.roots_sublist.append Forest.roots_sublist).cons_cons _

theorem row_perm {id : Nat} : ((gap.parent root :: (gap.before.roots ++ gap.after.roots)) ++ [id]).Perm
    (gap.parent root :: (gap.before.roots ++ id :: gap.after.roots)) := by
  rw [List.cons_append]
  exact (List.perm_append_comm.trans (@List.perm_middle _ id gap.before.roots gap.after.roots).symm).cons _

theorem row_subset {tree : Tree} : (gap.parent root :: (gap.before.roots ++ tree.id :: gap.after.roots)) ⊆
    root :: (gap.ids ++ tree.forest.ids) :=
  fun _ h => row_sublist.subset (row_perm.mem_iff.mpr h)

theorem row_subset_gap : (gap.parent root :: (gap.before.roots ++ gap.after.roots)) ⊆ root :: gap.ids :=
  (((Forest.roots_sublist.append Forest.roots_sublist).cons_cons _).trans near_sublist).subset

-- What is outside of a tree is outside of a subtree and of what is around it.
theorem not_mem_fill {id : Nat} (h : id ∉ root :: (gap.fill forest).ids) : id ∉ root :: gap.ids ∧ id ∉ forest.ids := by
  rw [(Gap.ids_fill.trans List.perm_append_comm).cons root |>.mem_iff, ← List.cons_append, List.mem_append, not_or] at h
  exact h

theorem roots_congr (h : forest.roots = other.roots) : (gap.fill forest).roots = (gap.fill other).roots := by
  induction gap generalizing forest other with
  | top before after => simp only [fill, Forest.roots_append, h]
  | inside outer id symbol changed before after ih => exact ih rfl

theorem roots_flag : (gap.flag.fill forest).roots = (gap.fill forest).roots := by
  induction gap generalizing forest with
  | top before after => rfl
  | inside outer id symbol changed before after ih => exact ih.trans (roots_congr rfl)

end Gap

namespace Store.Planted

variable {store other : Store} {root id anchor new version : Nat} {gap : Gap} {tree : Tree} {forest : Forest}
  {label fresh : Label}

theorem apart (hp : store.Planted root (gap.fill forest)) : (root :: (gap.ids ++ forest.ids)).Nodup :=
  ((Gap.ids_fill.trans List.perm_append_comm).cons root).nodup_iff.mp hp.nodup

theorem lt (hp : store.Planted root (gap.fill forest)) : ∀ id ∈ root :: (gap.ids ++ forest.ids), id < store.size :=
  fun id h => hp.lt_size id (((Gap.ids_fill.trans List.perm_append_comm).cons root).mem_iff.mpr h)

theorem surrounds (hp : store.Planted root (gap.fill forest)) : store.Surrounds root gap forest.roots :=
  (linked_fill.mp hp.linked).1

theorem kept (hp : store.Planted root (gap.fill forest)) : store.Kept forest := (linked_fill.mp hp.linked).2

theorem gap_nodup (hp : store.Planted root (gap.fill forest)) : (root :: gap.ids).Nodup := by
  have hn := hp.apart
  rw [← List.cons_append] at hn
  exact (List.nodup_append.mp hn).1

theorem gap_lt (hp : store.Planted root (gap.fill forest)) : ∀ id ∈ root :: gap.ids, id < store.size := by
  intro id h
  refine hp.lt id ?_
  rw [← List.cons_append]
  exact List.mem_append_left _ h

-- There are enough nodes for a walk up from a gap.
theorem rungs_lt (hp : store.Planted root (gap.fill forest)) : gap.rungs.length < store.size :=
  length_le_size (hp.gap_nodup.sublist (Gap.rungs_sublist.cons_cons root))
    fun id h => hp.gap_lt id ((Gap.rungs_sublist.cons_cons root).subset h)

-- The leaves below the root, of whatever forest it stands over.
theorem leaves (hp : store.Planted root forest) : store.leaves root = forest.leaves.map Prod.fst := by
  have hlength := length_le_size hp.nodup hp.lt_size
  obtain ⟨fuel, hfuel⟩ := Nat.exists_eq_add_of_le' (Nat.le_trans (Nat.le_add_left 1 _) hlength)
  have hleaves := @Kept.leaves store _ hp.linked.kept fuel (by simp at hlength; omega)
  rw [Store.leaves, hfuel, leavesBelow, if_neg (ne_true_of_eq_false hp.not_isLeaf),
    show (store.node root).children = forest.roots from hp.children, hleaves]

-- The children of the node above a gap.
theorem siblings (hp : store.Planted root (gap.fill forest)) :
    (store.view (gap.parent root)).children = gap.siblings forest.roots := by
  have hs := hp.surrounds
  cases gap with
  | top before after =>
      have hc := hp.children
      simpa [Gap.fill, Gap.siblings, Gap.before, Gap.after, Gap.parent] using hc
  | inside outer id symbol changed before after => exact hs.2.2.2.2.1

-- Other trees in a gap, where no more than the parent and the siblings is changed.
theorem refill {filling : Forest} (hp : store.Planted root (gap.fill forest)) (hsize : other.size = store.size)
    (hself : other.view (gap.parent root) =
      { store.view (gap.parent root) with children := gap.siblings filling.roots })
    (hchain : other.Chain (gap.parent root) none none (gap.siblings filling.roots))
    (hsiblings : ∀ id ∈ gap.before.roots ++ gap.after.roots, (other.view id).label = (store.view id).label ∧
      (other.view id).children = (store.view id).children)
    (hv : ∀ id ∈ root :: gap.ids, id ≠ gap.parent root → id ∉ gap.before.roots ++ gap.after.roots →
      other.view id = store.view id)
    (hkept : other.Kept filling) (hn : filling.ids.Nodup) (hapart : ∀ id ∈ filling.ids, id ∉ root :: gap.ids)
    (hlt : ∀ id ∈ filling.ids, id < store.size) :
    other.Planted root (gap.fill filling) ∧ (other.view root).host = (store.view root).host := by
  have hnodup := hp.apart
  rw [← List.cons_append] at hnodup
  obtain ⟨hgap, -, -⟩ := List.nodup_append.mp hnodup
  have hsurrounds := hp.surrounds.replace hgap hself hchain hsiblings fun id h => hv id (List.mem_cons_of_mem _ h)
  have hperm : (root :: (gap.fill filling).ids).Perm (root :: (gap.ids ++ filling.ids)) :=
    (Gap.ids_fill.trans List.perm_append_comm).cons root
  have hroot : (other.view root).label = (store.view root).label ∧ (other.view root).host = (store.view root).host ∧
      (other.view root).parent = (store.view root).parent ∧ (other.view root).right = (store.view root).right ∧
      (other.view root).children = (gap.fill filling).roots := by
    cases gap with
    | top before after =>
        change other.view root = _ at hself
        rw [hself]
        refine ⟨rfl, rfl, rfl, rfl, ?_⟩
        simp [Gap.fill, Gap.siblings, Gap.before, Gap.after]
    | inside outer id symbol changed before after =>
        have hmem : ∀ node ∈ (Gap.inside outer id symbol changed before after).ids, root ≠ node := by
          rintro node h rfl
          exact (List.nodup_cons.mp hgap).1 h
        have hsub := @Gap.near_sublist (.inside outer id symbol changed before after) root
        rw [hv root List.mem_cons_self (hmem id List.mem_cons_self) fun h => ?_]
        · exact ⟨rfl, rfl, rfl, rfl, hp.children.trans (@Gap.roots_congr outer _ (.node id symbol changed _ .nil) rfl)⟩
        · refine hmem root (List.mem_cons_of_mem _ (List.mem_append_left _ ?_)) rfl
          exact List.mem_append.mpr ((List.mem_append.mp h).imp Forest.mem_ids_of_roots Forest.mem_ids_of_roots)
  obtain ⟨hlabel, hhost, hparent, hright, hchildren⟩ := hroot
  refine ⟨⟨hlabel ▸ hp.label, hparent.trans hp.parent, hright.trans hp.right, hchildren,
    linked_fill.mpr ⟨hsurrounds, hkept⟩, hperm.nodup_iff.mpr ?_, fun id h => ?_⟩, hhost⟩
  · rw [← List.cons_append]
    refine List.nodup_append.mpr ⟨hgap, hn, fun id h node hnode => ?_⟩
    rintro rfl
    exact hapart id hnode h
  · rw [hsize]
    have hmem := hperm.mem_iff.mp h
    rw [← List.cons_append] at hmem
    rcases List.mem_append.mp hmem with hmem | hmem
    · refine hp.lt id ?_
      rw [← List.cons_append]
      exact List.mem_append_left _ hmem
    · exact hlt id hmem

section Subtree

variable (hp : store.Planted root (gap.fill tree.forest))

include hp

theorem subtree_nodup : tree.forest.ids.Nodup := by
  have hn := hp.apart
  rw [← List.cons_append] at hn
  exact (List.nodup_append.mp hn).2.1

theorem subtree_apart : ∀ id ∈ tree.forest.ids, id ∉ root :: gap.ids := by
  have hn := hp.apart
  rw [← List.cons_append] at hn
  exact fun id h hmem => (List.nodup_append.mp hn).2.2 id hmem id h rfl

theorem subtree_lt : ∀ id ∈ tree.forest.ids, id < store.size :=
  fun id h => hp.lt id (List.mem_cons_of_mem _ (List.mem_append_right _ h))

theorem near_nodup : (gap.parent root :: (gap.before.roots ++ tree.id :: gap.after.roots)).Nodup :=
  Gap.row_perm.nodup_iff.mp (hp.apart.sublist Gap.row_sublist)

-- Neither the node above a subtree nor its root is next to it.
theorem row_ne : ∀ id ∈ gap.before.roots ++ gap.after.roots, id ≠ gap.parent root ∧ id ≠ tree.id := by
  intro id h
  obtain ⟨hparent, hrow⟩ := List.nodup_cons.mp hp.near_nodup
  have hsub : gap.before.roots ++ gap.after.roots ⊆ gap.before.roots ++ tree.id :: gap.after.roots :=
    ((List.sublist_cons_self _ _).append_left _).subset
  refine ⟨fun he => hparent (he ▸ hsub h), fun he => ?_⟩
  exact (List.nodup_cons.mp (List.perm_middle.nodup_iff.mp hrow)).1 (he ▸ h)

theorem near_lt : ∀ id ∈ gap.parent root :: (gap.before.roots ++ tree.id :: gap.after.roots), id < store.size :=
  fun id h => hp.lt id (Gap.row_subset h)

theorem place : (store.view tree.id).parent = some (gap.parent root) ∧
    (store.view tree.id).left = gap.before.roots.getLast? ∧ (store.view tree.id).right = gap.after.roots.head? := by
  have hc := hp.surrounds.chain
  rw [Gap.siblings, Tree.roots_forest, chain_append] at hc
  obtain ⟨-, hparent, hleft, hright, -⟩ := hc
  exact ⟨hparent, hleft.trans (Option.or_none), hright.trans (Option.or_none)⟩

theorem siblings_subtree :
    (store.view (gap.parent root)).children = gap.before.roots ++ tree.id :: gap.after.roots := by
  rw [hp.siblings, Gap.siblings, Tree.roots_forest]
  rfl

-- A leaf is put in behind a subtree.
theorem insert (hnew : new ∉ root :: (gap.fill tree.forest).ids) (hlt : new < store.size)
    (hfresh : store.Holds (.leaf new fresh)) :
    ∃ result, store.insertAfter? (gap.parent root) tree.id new = some result ∧ result.size = store.size ∧
      result.Planted root (gap.fill (tree.before (.leaf new fresh .nil))) ∧
      (result.view root).host = (store.view root).host := by
  have hnear := hp.near_nodup
  have hnearlt := hp.near_lt
  obtain ⟨-, hleft, hright⟩ := hp.place
  obtain ⟨hgapnew, hnewids⟩ := Gap.not_mem_fill hnew
  have hnewnear : new ∉ gap.parent root :: (gap.before.roots ++ tree.id :: gap.after.roots) := fun h =>
    (List.mem_append.mp (List.cons_append ▸ Gap.row_subset h)).elim hgapnew hnewids
  obtain ⟨hparentnot, hrow⟩ := List.nodup_cons.mp hnear
  obtain ⟨hbefore, hafter, hapart⟩ := List.nodup_append.mp hrow
  obtain ⟨hanchornot, hafter⟩ := List.nodup_cons.mp hafter
  have hnodup : (gap.parent root :: new :: tree.id :: gap.after.roots).Nodup := by
    refine List.nodup_cons.mpr ⟨?_, List.nodup_cons.mpr ⟨?_, List.nodup_cons.mpr ⟨hanchornot, hafter⟩⟩⟩
    · intro h
      rcases List.mem_cons.mp h with h | h
      · exact hnewnear (h ▸ List.mem_cons_self)
      · exact hparentnot (List.mem_append_right _ h)
    · exact fun h => hnewnear (List.mem_cons_of_mem _ (List.mem_append_right _ h))
  obtain ⟨result, hresult, hsize, hself, hplaced, hanchor, hfirst, hothers⟩ :=
    @insertAfter?_spec store (gap.parent root) tree.id new gap.before.roots gap.after.roots hp.siblings_subtree
      (fun h => hapart tree.id h tree.id List.mem_cons_self rfl) hright hnodup (by
        refine List.forall_mem_cons.mpr ⟨hnearlt _ List.mem_cons_self, List.forall_mem_cons.mpr ⟨hlt, fun id h => ?_⟩⟩
        exact hnearlt id (List.mem_cons_of_mem _ (List.mem_append_right _ h)))
  refine ⟨result, hresult, hsize, ?_⟩
  have hsame : ∀ id, id ≠ gap.parent root → id ≠ new → id ≠ tree.id → id ∉ gap.after.roots.head? →
      result.view id = store.view id := by
    intro id hp hn ha hf
    refine hothers id ?_
    simp only [List.mem_cons, Option.mem_toList, not_or]
    exact ⟨hp, hn, ha, hf⟩
  have hnewrow : ∀ id ∈ gap.before.roots ++ gap.after.roots, id ≠ new := by
    rintro id h rfl
    exact hgapnew (Gap.row_subset_gap (List.mem_cons_of_mem _ h))
  have hchain := hp.surrounds.chain
  rw [Tree.roots_forest] at hchain
  refine hp.refill hsize ?self ?chain (fun id h => ?siblings) (fun id h hp' hrow => ?others) ?kept ?nodup ?apart ?lt
  case self =>
    rw [hself, Gap.siblings, Tree.roots_before]
    rfl
  case chain =>
    rw [Gap.siblings, Tree.roots_before]
    refine chain_insert hchain ?_ ?_ (fun first h => ?_) fun id h => ?_
    · rw [hplaced]
      exact ⟨rfl, rfl, Option.or_none.symm⟩
    · rw [hanchor]
      exact ⟨rfl, rfl, rfl⟩
    · rw [hfirst first h]
      exact ⟨rfl, rfl, rfl⟩
    · have hmem : id ∈ gap.before.roots ++ gap.after.roots :=
        List.mem_append.mpr ((List.mem_append.mp h).imp_right List.mem_of_mem_tail)
      obtain ⟨hparent, hanchor⟩ := hp.row_ne id hmem
      refine .of_view (hsame id hparent (hnewrow id hmem) hanchor fun hf => ?_)
      have hhead := List.mem_of_mem_head? hf
      rcases List.mem_append.mp h with h | h
      · exact hapart id h id (List.mem_cons_of_mem _ hhead) rfl
      · exact not_mem_tail_of_head? hafter hf h
  case siblings =>
    obtain ⟨hparent, hanchor⟩ := hp.row_ne id h
    by_cases hf : id ∈ gap.after.roots.head?
    · rw [hfirst id hf]
      exact ⟨rfl, rfl⟩
    · rw [hsame id hparent (hnewrow id h) hanchor hf]
      exact ⟨rfl, rfl⟩
  case others =>
    refine hsame id hp' ?_ ?_ fun hf => hrow (List.mem_append_right _ (List.mem_of_mem_head? hf))
    · rintro rfl
      exact hgapnew h
    · rintro rfl
      exact hp.subtree_apart _ tree.id_mem_ids h
  case kept =>
    obtain ⟨hfreshlabel, hfreshchildren, hfreshsymbol⟩ := hfresh
    refine kept_before.mpr ⟨(kept_forest.mp hp.kept).congr ?_ ?_ (fun id h hne => ?_) hp.subtree_nodup,
      ⟨?_, ?_, hfreshsymbol⟩, trivial⟩
    · rw [hanchor]
    · rw [hanchor]
    · have hid := hp.subtree_apart id h
      refine hsame id (fun he => hid ?_) (fun he => hnewids (he ▸ h)) hne fun hf => hid ?_
      · exact he ▸ Gap.near_sublist.subset List.mem_cons_self
      · refine Gap.near_sublist.subset (List.mem_cons_of_mem _ (List.mem_append_right _ ?_))
        exact Forest.mem_ids_of_roots (List.mem_of_mem_head? hf)
    · rw [hplaced]
      exact hfreshlabel
    · rw [hplaced]
      exact hfreshchildren
  case nodup =>
    rw [Tree.ids_before]
    refine List.nodup_append.mpr ⟨hp.subtree_nodup, List.nodup_singleton new, fun id h other ho => ?_⟩
    rintro rfl
    exact hnewids (List.mem_singleton.mp ho ▸ h)
  case apart =>
    rw [Tree.ids_before]
    exact List.forall_mem_append.mpr ⟨hp.subtree_apart, List.forall_mem_singleton.mpr hgapnew⟩
  case lt =>
    rw [Tree.ids_before]
    exact List.forall_mem_append.mpr ⟨hp.subtree_lt, List.forall_mem_singleton.mpr hlt⟩

-- A subtree is taken out.
theorem remove :
    ∃ result, store.removeChild? (gap.parent root) tree.id = some result ∧ result.size = store.size ∧
      (∀ id ∈ tree.forest.ids, result.view id = store.view id) ∧
      result.Planted root (gap.fill .nil) ∧ (result.view root).host = (store.view root).host := by
  have hnear := hp.near_nodup
  obtain ⟨-, hleft, hright⟩ := hp.place
  obtain ⟨hparentnot, hrow⟩ := List.nodup_cons.mp hnear
  obtain ⟨hbefore, hafter, hapart⟩ := List.nodup_append.mp hrow
  obtain ⟨hanchornot, hafter⟩ := List.nodup_cons.mp hafter
  obtain ⟨result, hresult, hsize, hself, hlast, hfirst, hothers⟩ :=
    @removeChild?_spec store (gap.parent root) tree.id gap.before.roots gap.after.roots hp.siblings_subtree
      (fun h => hapart tree.id h tree.id List.mem_cons_self rfl) hleft hright hnear hp.near_lt
  refine ⟨result, hresult, hsize, fun id h => ?below, ?_⟩
  case below =>
    have hid := hp.subtree_apart id h
    refine hothers id fun hmem => hid (Gap.near_sublist.subset ?_)
    rw [List.mem_cons, List.mem_append, Option.mem_toList, Option.mem_toList] at hmem
    rcases hmem with rfl | hl | hf
    · exact List.mem_cons_self
    · exact List.mem_cons_of_mem _ (List.mem_append_left _ (Forest.mem_ids_of_roots (List.mem_of_getLast? hl)))
    · exact List.mem_cons_of_mem _ (List.mem_append_right _ (Forest.mem_ids_of_roots (List.mem_of_mem_head? hf)))
  have hsame : ∀ id, id ≠ gap.parent root → id ∉ gap.before.roots.getLast? → id ∉ gap.after.roots.head? →
      result.view id = store.view id := by
    intro id hp hl hf
    refine hothers id ?_
    rw [List.mem_cons, List.mem_append, not_or, not_or, Option.mem_toList, Option.mem_toList]
    exact ⟨hp, hl, hf⟩
  refine hp.refill hsize hself ?chain (fun id h => ?siblings) (fun id h hp' hrow => ?others) trivial
    List.nodup_nil nofun nofun
  case chain =>
    have hchain := hp.surrounds.chain
    rw [Tree.roots_forest] at hchain
    refine chain_remove hchain (fun last h => ?_) (fun first h => ?_) fun id h => ?_
    · rw [hlast last h]
      exact ⟨rfl, rfl, Option.or_none.symm⟩
    · rw [hfirst first h]
      exact ⟨rfl, Option.or_none.symm, rfl⟩
    · have hmem : id ∈ gap.before.roots ++ gap.after.roots :=
        List.mem_append.mpr ((List.mem_append.mp h).imp (fun h => (List.dropLast_sublist _).subset h) List.mem_of_mem_tail)
      refine .of_view (hsame id (hp.row_ne id hmem).1 (fun hl => ?_) fun hf => ?_)
      · rcases List.mem_append.mp h with h | h
        · exact not_mem_dropLast_of_getLast? hbefore hl h
        · exact hapart id (List.mem_of_getLast? hl) id (List.mem_cons_of_mem _ (List.mem_of_mem_tail h)) rfl
      · rcases List.mem_append.mp h with h | h
        · exact hapart id ((List.dropLast_sublist _).subset h) id (List.mem_cons_of_mem _ (List.mem_of_mem_head? hf)) rfl
        · exact not_mem_tail_of_head? hafter hf h
  case siblings =>
    by_cases hl : id ∈ gap.before.roots.getLast?
    · rw [hlast id hl]
      exact ⟨rfl, rfl⟩
    · by_cases hf : id ∈ gap.after.roots.head?
      · rw [hfirst id hf]
        exact ⟨rfl, rfl⟩
      · rw [hsame id (hp.row_ne id h).1 hl hf]
        exact ⟨rfl, rfl⟩
  case others =>
    refine hsame id hp' (fun hl => hrow ?_) fun hf => hrow (List.mem_append_right _ (List.mem_of_mem_head? hf))
    exact List.mem_append_left _ (List.mem_of_getLast? hl)

end Subtree

-- A leaf gets another label.
theorem relabel (hp : store.Planted root (gap.fill (Tree.leaf anchor label).forest)) (hsize : other.size = store.size)
    (hself : other.view anchor = { store.view anchor with label := fresh })
    (hothers : ∀ id, id ≠ anchor → other.view id = store.view id) (hsymbol : fresh.symbol.isNonterminal = false) :
    other.Planted root (gap.fill (.leaf anchor fresh .nil)) ∧ (other.view root).host = (store.view root).host := by
  have hnear := hp.near_nodup
  have hplace : ∀ id, store.SamePlace other id := by
    intro id
    by_cases he : id = anchor
    · rw [SamePlace, he, hself]
      exact ⟨rfl, rfl, rfl⟩
    · exact .of_view (hothers id he)
  obtain ⟨hparentnot, -⟩ := List.nodup_cons.mp hnear
  refine hp.refill hsize ?_ (hp.surrounds.chain.congr fun id _ => hplace id) (fun id h => ?_) (fun id h _ _ => ?_) ?_
    (List.nodup_singleton _) (List.forall_mem_singleton.mpr (hp.subtree_apart _ List.mem_cons_self))
    (List.forall_mem_singleton.mpr ?_)
  · have hsiblings : (store.view (gap.parent root)).children = gap.siblings (Forest.leaf anchor fresh .nil).roots :=
      hp.siblings
    have hne : gap.parent root ≠ anchor := fun he => hparentnot (List.mem_append_right _ (he ▸ List.mem_cons_self))
    rw [hothers (gap.parent root) hne, ← hsiblings]
  · rw [hothers id (hp.row_ne id h).2]
    exact ⟨rfl, rfl⟩
  · refine hothers id ?_
    rintro rfl
    exact hp.subtree_apart _ List.mem_cons_self h
  · refine ⟨⟨?_, ?_, hsymbol⟩, trivial⟩
    · rw [hself]
    · rw [hself]
      exact hp.kept.1.2.1
  · exact hp.near_lt anchor (List.mem_cons_of_mem _ (List.mem_append_right _ List.mem_cons_self))

end Store.Planted

-- The same trees with other flags.
def Forest.reflag (flags : Nat → Bool) : Forest → Forest
  | nil => nil
  | leaf id label after => leaf id { label with changed := flags id } (after.reflag flags)
  | node id symbol _ below after => node id symbol (flags id) (below.reflag flags) (after.reflag flags)

namespace Forest

variable {flags : Nat → Bool} {forest other : Forest}

@[simp] theorem reflag_append : (forest ++ other).reflag flags = forest.reflag flags ++ other.reflag flags := by
  induction forest with
  | nil => rfl
  | leaf id label after ih => rw [leaf_append, reflag, ih, reflag, leaf_append]
  | node id symbol changed below after _ ih => rw [node_append, reflag, ih, reflag, node_append]

@[simp] theorem roots_reflag : (forest.reflag flags).roots = forest.roots := by
  induction forest with
  | nil => rfl
  | leaf id label after ih => rw [reflag, roots, ih, roots]
  | node id symbol changed below after _ ih => rw [reflag, roots, ih, roots]

@[simp] theorem ids_reflag : (forest.reflag flags).ids = forest.ids := by
  induction forest with
  | nil => rfl
  | leaf id label after ih => rw [reflag, ids, ih, ids]
  | node id symbol changed below after ihbelow ih => rw [reflag, ids, ihbelow, ih, ids]

theorem leaves_reflag :
    (forest.reflag flags).leaves = forest.leaves.map fun entry => (entry.1, { entry.2 with changed := flags entry.1 }) := by
  induction forest with
  | nil => rfl
  | leaf id label after ih => rw [reflag, leaves, ih, leaves, List.map_cons]
  | node id symbol changed below after ihbelow ih => rw [reflag, leaves, ihbelow, ih, leaves, List.map_append]

@[simp] theorem snapshots_reflag : (forest.reflag flags).snapshots = forest.snapshots := by
  induction forest with
  | nil => rfl
  | leaf id label after ih => rw [reflag, snapshots, ih, snapshots]
  | node id symbol changed below after ihbelow ih => rw [reflag, snapshots, ihbelow, ih, snapshots]

end Forest

namespace Store

variable {store other : Store} {root parent id : Nat} {left : Option Nat} {forest : Forest}

-- What a node holds besides its flag and its host is what versions keep of it.
theorem view_of_attributes (ha : (other.node id).toAttributes = (store.node id).toAttributes) :
    other.view id = { store.view id with
      label := { (store.view id).label with changed := (other.node id).changed }, host := (other.node id).host } := by
  rw [view, Node.view, Node.label, ha]
  rfl

-- Trees stay linked, with the flags that they have now, in whatever store their nodes
-- have the same attributes.
theorem Linked.reflag (hl : store.Linked parent left forest)
    (ha : ∀ id ∈ forest.ids, (other.node id).toAttributes = (store.node id).toAttributes) :
    other.Linked parent left (forest.reflag fun id => (other.node id).changed) := by
  induction forest generalizing parent left with
  | nil => trivial
  | leaf id label after ih =>
      obtain ⟨hview, hleaf, hafter⟩ := hl
      refine ⟨?_, hleaf, ih hafter fun id h => ha id (List.mem_cons_of_mem _ h)⟩
      rw [view_of_attributes (ha id List.mem_cons_self), hview, Forest.roots_reflag]
  | node id symbol changed below after ihbelow ih =>
      obtain ⟨hview, hnode, hbelow, hafter⟩ := hl
      refine ⟨?_, hnode, ihbelow hbelow fun id h => ha id ?_, ih hafter fun id h => ha id ?_⟩
      · rw [view_of_attributes (ha id List.mem_cons_self), hview, Forest.roots_reflag, Forest.roots_reflag]
      · exact List.mem_cons_of_mem _ (List.mem_append_left _ h)
      · exact List.mem_cons_of_mem _ (List.mem_append_right _ h)

theorem Planted.reflag (hp : store.Planted root forest) (hlt : ∀ id ∈ root :: forest.ids, id < other.size)
    (ha : ∀ id ∈ root :: forest.ids, (other.node id).toAttributes = (store.node id).toAttributes) :
    other.Planted root (forest.reflag fun id => (other.node id).changed) := by
  have hroot := view_of_attributes (ha root List.mem_cons_self)
  refine ⟨?_, ?_, ?_, ?_, hp.linked.reflag fun id h => ha id (List.mem_cons_of_mem _ h), ?_, ?_⟩
  · rw [hroot]
    exact hp.label
  · rw [hroot]
    exact hp.parent
  · rw [hroot]
    exact hp.right
  · rw [hroot, Forest.roots_reflag]
    exact hp.children
  · rw [Forest.ids_reflag]
    exact hp.nodup
  · rw [Forest.ids_reflag]
    exact hlt

end Store

end IncrementalLR
