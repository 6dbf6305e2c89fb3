import IncrementalLR.Proofs.Tree.Planted
import IncrementalLR.Proofs.Tree.Thread

namespace IncrementalLR

-- The last tree of a forest.
theorem Forest.exists_last {forest : Forest} {id : Nat} (h : forest.roots.getLast? = some id) :
    ∃ (rest : Forest) (tree : Tree), forest = rest ++ tree.forest ∧ tree.id = id := by
  induction forest using Forest.spine_induction with
  | nil => cases h
  | before first after ih =>
      rw [Tree.roots_before, List.getLast?_cons] at h
      cases hlast : after.roots.getLast? with
      | none =>
          obtain rfl : after = .nil := by
            cases after with
            | nil => rfl
            | leaf id label after => simp [Forest.roots] at hlast
            | node id symbol changed below after => simp [Forest.roots] at hlast
          rw [hlast] at h
          exact ⟨.nil, first, rfl, Option.some_inj.mp h⟩
      | some last =>
          rw [hlast] at h
          obtain ⟨rest, tree, rfl, htree⟩ := ih (hlast.trans h)
          exact ⟨first.before rest, tree, Tree.before_append.symm, htree⟩

namespace Gap

-- The root before a gap, next to it or to a node above.
def preceding? : Gap → Option Nat
  | top before _ => before.roots.getLast?
  | inside outer _ _ _ before _ => before.roots.getLast?.or outer.preceding?

-- How many roots there are before a gap, on all levels.
def depth : Gap → Nat
  | top before _ => before.roots.length
  | inside outer _ _ _ before _ => outer.depth + before.roots.length

variable {gap : Gap} {forest : Forest} {id : Nat}

theorem depth_le : gap.depth ≤ gap.ids.length := by
  induction gap with
  | top before after =>
      rw [depth, ids, List.length_append]
      exact Nat.le_trans Forest.roots_sublist.length_le (Nat.le_add_right _ _)
  | inside outer id symbol changed before after ih =>
      have hle := (@Forest.roots_sublist before).length_le
      simp only [depth, ids, List.length_cons, List.length_append]
      omega

theorem leading_of_preceding? (h : gap.preceding? = none) : gap.leading = [] := by
  have hnil : ∀ {before : Forest}, before.roots.getLast? = none → before = .nil := by
    intro before h
    cases before with
    | nil => rfl
    | leaf id label after => simp [Forest.roots] at h
    | node id symbol changed below after => simp [Forest.roots] at h
  induction gap with
  | top before after =>
      rw [leading, hnil h]
      rfl
  | inside outer id symbol changed before after ih =>
      obtain ⟨hbefore, houter⟩ := Option.or_eq_none_iff.mp h
      rw [leading, hnil hbefore, ih houter]
      rfl

-- The tree before a gap fills another gap, and has the last leaves before the first one.
theorem exists_preceding (h : gap.preceding? = some id) (forest : Forest) :
    ∃ (other : Gap) (tree : Tree), tree.id = id ∧ gap.fill forest = other.fill tree.forest ∧
      gap.leading = other.leading ++ tree.forest.leaves ∧ other.depth < gap.depth := by
  induction gap generalizing forest with
  | top before after =>
      obtain ⟨rest, tree, rfl, htree⟩ := Forest.exists_last h
      refine ⟨.top rest (forest ++ after), tree, htree, Forest.append_assoc, Forest.leaves_append, ?_⟩
      simp [depth]
  | inside outer inner symbol changed before after ih =>
      cases hlast : before.roots.getLast? with
      | some last =>
          rw [preceding?, hlast] at h
          obtain ⟨rest, tree, rfl, htree⟩ := Forest.exists_last (hlast.trans h)
          refine ⟨.inside outer inner symbol changed rest (forest ++ after), tree, htree, ?_, ?_, ?_⟩
          · rw [fill, fill, Forest.append_assoc]
          · rw [leading, leading, Forest.leaves_append, List.append_assoc]
          · simp [depth]
      | none =>
          rw [preceding?, hlast] at h
          obtain ⟨other, tree, htree, hfill, hleading, hdepth⟩ :=
            ih h (.node inner symbol changed (before ++ (forest ++ after)) .nil)
          have hnone : before.leaves = [] := @leading_of_preceding? (.top before after) hlast
          refine ⟨other, tree, htree, hfill, ?_, Nat.lt_of_lt_of_le hdepth (Nat.le_add_right _ _)⟩
          rw [leading, hnone, List.append_nil, hleading]

end Gap

namespace Store

variable {store : Store} {root : Nat} {gap : Gap} {tree : Tree} {roots : List Nat}

-- A walk up and to the left ends at the root before the gap.
theorem Surrounds.precedingFrom {first fuel prev : Nat} (hs : store.Surrounds root gap roots) (hfirst : roots.head? = some first)
    (h : gap.preceding? = some prev) (hfuel : gap.rungs.length < fuel) : store.precedingFrom fuel first = some prev := by
  induction gap generalizing roots first fuel with
  | top before after =>
      obtain ⟨fuel, rfl⟩ := Nat.exists_eq_add_of_le' (Nat.one_le_of_lt hfuel)
      have hc := hs.chain
      obtain ⟨rest, rfl⟩ := List.head?_eq_some_iff.mp hfirst
      rw [Gap.siblings, chain_append] at hc
      have hleft : (store.node first).left = some prev := hc.2.2.1.trans (Option.or_none.trans h)
      rw [Store.precedingFrom, hleft]
  | inside outer id symbol changed before after ih =>
      obtain ⟨fuel, rfl⟩ := Nat.exists_eq_add_of_le' (Nat.one_le_of_lt hfuel)
      have hc := hs.chain
      obtain ⟨rest, rfl⟩ := List.head?_eq_some_iff.mp hfirst
      rw [Gap.siblings, chain_append] at hc
      have hleft : (store.node first).left = before.roots.getLast? := hc.2.2.1.trans Option.or_none
      have hparent : (store.node first).parent = some id := hc.2.1
      rw [Store.precedingFrom, hleft]
      cases hlast : before.roots.getLast? with
      | some last =>
          rw [Gap.preceding?, hlast] at h
          exact h
      | none =>
          rw [Gap.preceding?, hlast] at h
          rw [hparent]
          exact ih hs.2.2.2.2.2.2 rfl h (Nat.lt_of_succ_lt_succ hfuel)

namespace Planted

-- The leaves of a subtree.
theorem leaves_subtree (hp : store.Planted root (gap.fill tree.forest)) :
    store.leaves tree.id = tree.forest.leaves.map Prod.fst := by
  have hlength := length_le_size hp.subtree_nodup hp.subtree_lt
  have hleaves := hp.kept.leaves hlength
  rwa [Tree.roots_forest, List.flatMap_singleton] at hleaves

-- The last leaf up to a subtree.
theorem leafUpTo? (hp : store.Planted root (gap.fill tree.forest)) (hne : gap.leading ++ tree.forest.leaves ≠ []) :
    store.leafUpTo? tree.id = ((gap.leading ++ tree.forest.leaves).map Prod.fst).getLast? := by
  have hfrom : ∀ fuel, gap.depth < fuel →
      store.leafUpToFrom fuel tree.id = ((gap.leading ++ tree.forest.leaves).map Prod.fst).getLast? := by
    intro fuel hfuel
    induction hdepth : gap.depth using Nat.strong_induction_on generalizing gap tree fuel with
    | _ depth ih =>
        obtain ⟨fuel, rfl⟩ := Nat.exists_eq_add_of_le' (Nat.one_le_of_lt hfuel)
        rw [leafUpToFrom, lastLeaf?_eq, hp.leaves_subtree, List.map_append, List.getLast?_append]
        cases hleaves : (tree.forest.leaves.map Prod.fst).getLast? with
        | some last => rfl
        | none =>
            obtain ⟨prev, hprev⟩ : ∃ prev, gap.preceding? = some prev := by
              refine Option.ne_none_iff_exists'.mp fun hnone => hne ?_
              rw [Gap.leading_of_preceding? hnone, List.map_eq_nil_iff.mp (List.getLast?_eq_none_iff.mp hleaves)]
              rfl
            obtain ⟨other, before, rfl, hfill, hleading, hlt⟩ := Gap.exists_preceding hprev tree.forest
            have hwalk : store.preceding? tree.id = some before.id :=
              hp.surrounds.precedingFrom (by rw [Tree.roots_forest]; rfl) hprev hp.rungs_lt
            rw [hfill] at hp
            rw [hwalk, Option.bind_some, Option.none_or, hleading]
            refine ih _ (hdepth ▸ hlt) hp (fun hnone => hne ?_) fuel (by omega) rfl
            rw [hleading, hnone, List.map_eq_nil_iff.mp (List.getLast?_eq_none_iff.mp hleaves)]
            rfl
  refine hfrom store.size (Nat.lt_of_le_of_lt Gap.depth_le ?_)
  exact length_le_size hp.gap_nodup hp.gap_lt

end Planted

end Store

end IncrementalLR
