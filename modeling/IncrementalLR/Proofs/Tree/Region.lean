import IncrementalLR.Proofs.Tree.Rethread
import IncrementalLR.Proofs.Tree.Versions

namespace IncrementalLR

namespace Store

variable {store after other : Store} {inside others : Nat → Prop} {ids : List Nat} {id version root parent : Nat}
  {left : Option Nat} {forest : Forest}

-- Trees are inside of what takes in the children of what is in it, if their roots are.
theorem Linked.ids_inside (hl : store.Linked parent left forest)
    (hc : ∀ id, inside id → ∀ child ∈ (store.node id).children, inside child) (hroots : ∀ id ∈ forest.roots, inside id) :
    ∀ id ∈ forest.ids, inside id := by
  induction forest generalizing parent left with
  | nil => exact nofun
  | leaf first label after ih =>
      obtain ⟨hfirst, hrest⟩ := List.forall_mem_cons.mp hroots
      exact List.forall_mem_cons.mpr ⟨hfirst, ih hl.2.2 hrest⟩
  | node first symbol changed below after ihbelow ih =>
      obtain ⟨hfirst, hrest⟩ := List.forall_mem_cons.mp hroots
      refine List.forall_mem_cons.mpr ⟨hfirst, List.forall_mem_append.mpr ⟨ihbelow hl.2.2.1 fun id h => ?_, ih hl.2.2.2 hrest⟩⟩
      have hchildren : (store.node first).children = below.roots := congrArg View.children hl.1
      exact hc first hfirst id (hchildren ▸ h)

theorem Planted.ids_inside (hp : store.Planted root forest)
    (hc : ∀ id, inside id → ∀ child ∈ (store.node id).children, inside child) (hroot : inside root) :
    ∀ id ∈ root :: forest.ids, inside id := by
  refine List.forall_mem_cons.mpr ⟨hroot, hp.linked.ids_inside hc fun id h => ?_⟩
  have hchildren : (store.node root).children = forest.roots := hp.children
  exact hc root hroot id (hchildren ▸ h)

-- Nodes that lead only to one another, now and at all versions.
structure Encloses (store : Store) (inside : Nat → Prop) : Prop where
  closed : store.Closed inside
  logged : ∀ id, inside id → ∀ version, ∀ attributes ∈ (store.node id).history.attributes.at? version,
    attributes.Within inside
  lt_size : ∀ id, inside id → id < store.size

namespace Encloses

-- The nodes take in those that are new.
theorem grows (hi : store.Encloses inside) (he : store.Evolves (store.WithNew after inside) after) :
    after.Encloses (store.WithNew after inside) where
  closed := he.closed hi.closed.withNew
  logged id hid version attributes h := by
    rcases hid with hid | ⟨hge, hlt⟩
    · rw [he.history] at h
      exact (hi.logged id hid version attributes h).imp fun _ => Or.inl
    · rw [(he.node_new hge hlt).2.2] at h
      cases h
  lt_size id hid := hid.elim (fun hid => Nat.lt_of_lt_of_le (hi.lt_size id hid) he.size_le) And.right

-- They are left alone by what becomes of others.
theorem apart (hi : store.Encloses inside) (he : store.Evolves others after) (hd : ∀ id, inside id → ¬others id) :
    after.Encloses inside where
  closed id hid := by
    rw [((he.node (hi.lt_size id hid)).resolve_right fun h => hd id hid h.1).attributes]
    exact hi.closed id hid
  logged id hid version attributes h := by
    rw [he.history] at h
    exact hi.logged id hid version attributes h
  lt_size id hid := Nat.lt_of_lt_of_le (hi.lt_size id hid) he.size_le

theorem remarked (hi : store.Encloses inside) (hr : store.Remarked others after) : after.Encloses inside where
  closed id hid := by
    rw [hr.attributes]
    exact hi.closed id hid
  logged id hid version attributes h := by
    rw [hr.history] at h
    exact hi.logged id hid version attributes h
  lt_size id hid := hr.size.symm ▸ hi.lt_size id hid

theorem saved (hi : store.Encloses inside) (hs : store.Saved ids after) : after.Encloses inside where
  closed id hid := by
    rw [hs.toAttributes]
    exact hi.closed id hid
  logged id hid version attributes h := by
    rw [hs.attributes] at h
    split at h
    · exact Option.some_inj.mp h ▸ hi.closed id hid
    · exact hi.logged id hid version attributes h
  lt_size id hid := hs.size.symm ▸ hi.lt_size id hid

theorem still (hi : store.Encloses inside) (hs : store.Still after) : after.Encloses inside where
  closed id hid := by
    rw [(hs.node id).attributes]
    exact hi.closed id hid
  logged id hid version attributes h := by
    rw [(hs.node id).history] at h
    exact hi.logged id hid version attributes h
  lt_size id hid := hs.size.symm ▸ hi.lt_size id hid

theorem commit (hi : store.Encloses inside) (hl : store.Logged) : store.commit.Encloses inside where
  closed id hid := by
    rw [node_commit, Node.commit_spec.1]
    exact hi.closed id hid
  logged id hid version attributes h := by
    rw [hl.attributes_commit] at h
    split at h
    · exact Option.some_inj.mp h ▸ hi.closed id hid
    · exact hi.logged id hid _ attributes h
  lt_size id hid := size_commit.symm ▸ hi.lt_size id hid

theorem restored (hi : store.Encloses inside) (hr : store.Restored version after) : after.Encloses inside where
  closed id hid := by
    rw [hr.node id (hi.lt_size id hid)]
    change ((store.node id).load version).toAttributes.Within inside
    unfold Node.load
    cases (store.node id).history.deleted.at? version with
    | none => exact hi.closed id hid
    | some deleted =>
        dsimp only
        cases hat : (store.node id).history.attributes.at? version with
        | none => exact hi.closed id hid
        | some attributes => exact hi.logged id hid version attributes hat
  logged id hid later attributes h := by
    rw [hr.kept.1] at h
    exact hi.logged id hid later attributes h
  lt_size id hid := hr.size.symm ▸ hi.lt_size id hid

end Encloses

end Store

end IncrementalLR
