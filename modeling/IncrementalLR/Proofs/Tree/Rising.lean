import IncrementalLR.Proofs.Tree.Rethread
import Mathlib.Data.Finset.Card
import Mathlib.Data.Finset.Range
import Mathlib.Logic.Relation

namespace IncrementalLR

namespace Node

variable {node other : Node}

-- A node with a flag that is stamped with a version.
def flag (version : Nat) (node : Node) : Node := { node with changed := true, version := version }

-- Whether a node has been flagged for a version.
def Stamped (node : Node) (version : Nat) : Prop := node.changed = true ∧ node.version = version

instance {version : Nat} : Decidable (node.Stamped version) := inferInstanceAs (Decidable (_ ∧ _))

-- A node but for what versions keep of it and for its mark.
def unkept (node : Node) : Node :=
  { node with toAttributes := default, deleted := false, pending := false }

theorem stamped_of_unkept {version : Nat} (hu : other.unkept = node.unkept) : other.Stamped version ↔ node.Stamped version :=
  show other.unkept.Stamped version ↔ node.unkept.Stamped version by rw [hu]

theorem eq_of_samePast (hs : node.SamePast other) (hu : other.unkept = node.unkept) : other = node := by
  obtain ⟨hattributes, hdeleted, hpending, -⟩ := hs
  have hrest : ∀ {α : Type} (part : Node → α), (∀ node : Node, part node.unkept = part node) → part other = part node := by
    intro α part h
    rw [← h other, hu, h]
  cases node
  cases other
  obtain rfl := hrest state fun _ => rfl
  obtain rfl := hrest changed fun _ => rfl
  obtain rfl := hrest host fun _ => rfl
  obtain rfl := hrest box fun _ => rfl
  obtain rfl := hrest alternate fun _ => rfl
  obtain rfl := hrest version fun _ => rfl
  obtain rfl := hrest history fun _ => rfl
  cases hattributes
  cases hdeleted
  cases hpending
  rfl

end Node

namespace Store

variable {store after other : Store} {inside : Nat → Prop} {id node parent anchor new child version : Nat}

section Unkept

variable {change : Attributes → Attributes} {ids : Option Nat} {deleted : Bool}

@[simp] theorem unkept_revise : ((store.revise id change).node node).unkept = (store.node node).unkept := by
  rw [revise, node_update]
  split
  · rfl
  · rfl

@[simp] theorem unkept_reviseAll : ((store.reviseAll ids change).node node).unkept = (store.node node).unkept := by
  cases ids with
  | none => rfl
  | some id => exact unkept_revise

@[simp] theorem unkept_setDeleted : ((store.setDeleted id deleted).node node).unkept = (store.node node).unkept := by
  rw [setDeleted, node_update]
  split
  · rfl
  · rfl

@[simp] theorem unkept_threadIn : ((store.threadIn anchor new).node id).unkept = (store.node id).unkept := by
  unfold threadIn
  split
  · simp
  · rfl

@[simp] theorem unkept_threadOut : ((store.threadOut child).node id).unkept = (store.node id).unkept := by
  unfold threadOut
  split
  · simp
  · rfl

-- Putting nodes in and taking them out does nothing to what no version keeps.
theorem unkept_insertAfter? (h : store.insertAfter? parent anchor new = some after) :
    (after.node id).unkept = (store.node id).unkept := by
  unfold insertAfter? at h
  split at h
  · cases h
  · obtain rfl := Option.some_inj.mp h
    simp

theorem unkept_removeChild? (h : store.removeChild? parent child = some after) :
    (after.node id).unkept = (store.node id).unkept := by
  unfold removeChild? at h
  split at h
  · cases h
  · obtain rfl := Option.some_inj.mp h
    simp

end Unkept

-- A step that changes only what versions keep, of certain nodes, leaves all others as they are.
theorem Evolves.node_eq (he : store.Evolves inside after) (hu : (after.node id).unkept = (store.node id).unkept)
    (hlt : id < store.size) (hid : ¬inside id) : after.node id = store.node id :=
  Node.eq_of_samePast ((he.node hlt).resolve_right fun h => hid h.1) hu

-- Whether one goes up from a node to another, in the tree or across the border of an
-- embedded document.
def Rises (store : Store) : Nat → Nat → Prop :=
  Relation.ReflTransGen fun id above => (store.node id).above = some above

-- A walk up does not lead elsewhere once nodes on it are flagged.
theorem above_flag : ((store.update id (Node.flag version)).node node).above = (store.node node).above := by
  rw [node_update]
  split
  · rfl
  · rfl

theorem flag_flag (node : Node) : (node.flag version).flag version = node.flag version := rfl

-- A walk up flags nodes on its way, and does nothing else.
theorem node_markChangedFrom {fuel : Nat} : (markChangedFrom version fuel id store).node node = store.node node ∨
    store.Rises id node ∧ (markChangedFrom version fuel id store).node node = (store.node node).flag version := by
  induction fuel generalizing id store with
  | zero => exact Or.inl rfl
  | succ fuel ih =>
      have hflag : (store.update id (Node.flag version)).node node = store.node node ∨
          store.Rises id node ∧ (store.update id (Node.flag version)).node node = (store.node node).flag version := by
        by_cases h : node = id ∧ id < store.size
        · exact Or.inr ⟨h.1 ▸ .refl, by rw [node_update, if_pos h]⟩
        · exact Or.inl (by rw [node_update, if_neg h])
      rw [markChangedFrom]
      dsimp only
      split
      · exact Or.inl rfl
      · split
        · rename_i above habove
          change (markChangedFrom version fuel above (store.update id (Node.flag version))).node node = _ ∨
            _ ∧ (markChangedFrom version fuel above (store.update id (Node.flag version))).node node = _
          rcases @ih (store.update id (Node.flag version)) above with hrest | ⟨hrises, hrest⟩
          · rw [hrest]
            exact hflag
          · have hstep : store.Rises id node := .head habove
              (Relation.ReflTransGen.mono (fun _ _ h => above_flag.symm.trans h) _ _ hrises)
            rw [hrest]
            rcases hflag with hflag | ⟨-, hflag⟩
            · exact Or.inr ⟨hstep, by rw [hflag]⟩
            · exact Or.inr ⟨hstep, by rw [hflag, flag_flag]⟩
        · exact hflag

theorem node_markChanged : (store.markChanged id version).node node = store.node node ∨
    store.Rises id node ∧ (store.markChanged id version).node node = (store.node node).flag version :=
  node_markChangedFrom

theorem above_markChanged {start : Nat} : ((store.markChanged start version).node id).above = (store.node id).above := by
  rcases @node_markChanged store start id version with h | ⟨-, h⟩
  · rw [h]
  · rw [h]
    rfl

theorem rises_markChanged (hr : store.Rises id node) {start : Nat} : (store.markChanged start version).Rises id node :=
  Relation.ReflTransGen.mono (fun _ _ h => above_markChanged.trans h) _ _ hr

-- The nodes that a walk up for a version does not stop at.
def unstamped (store : Store) (version : Nat) : Finset Nat :=
  (Finset.range store.size).filter fun id => ¬(store.node id).Stamped version

theorem mem_unstamped : id ∈ store.unstamped version ↔ id < store.size ∧ ¬(store.node id).Stamped version := by
  rw [unstamped, Finset.mem_filter, Finset.mem_range]

theorem stamped_flag (hlt : id < store.size) : ((store.update id (Node.flag version)).node id).Stamped version := by
  rw [node_update_self _ hlt]
  exact ⟨rfl, rfl⟩

theorem unstamped_flag : (store.update id (Node.flag version)).unstamped version = (store.unstamped version).erase id := by
  ext node
  rw [Finset.mem_erase, mem_unstamped, mem_unstamped, size_update]
  by_cases h : node = id
  · subst h
    exact ⟨fun ⟨hlt, hnot⟩ => absurd (stamped_flag hlt) hnot, fun ⟨hne, _⟩ => absurd rfl hne⟩
  · rw [node_update_ne _ h]
    exact ⟨fun hnode => ⟨h, hnode⟩, fun hnode => hnode.2⟩

-- What has been stamped stays so.
theorem stamped_markChangedFrom {fuel : Nat} (hs : (store.node node).Stamped version) :
    ((markChangedFrom version fuel id store).node node).Stamped version := by
  rcases @node_markChangedFrom store id node version fuel with h | ⟨-, h⟩
  · rwa [h]
  · rw [h]
    exact ⟨rfl, rfl⟩

theorem markChangedFrom_of_stamped {fuel : Nat} (hs : (store.node id).Stamped version) :
    markChangedFrom version fuel id store = store := by
  cases fuel with
  | zero => rfl
  | succ fuel =>
      rw [markChangedFrom]
      simp [hs.1, hs.2]

theorem markChangedFrom_of_not_stamped {fuel : Nat} (hs : ¬(store.node id).Stamped version) :
    markChangedFrom version (fuel + 1) id store =
      match (store.node id).above with
      | some above => markChangedFrom version fuel above (store.update id (Node.flag version))
      | none => store.update id (Node.flag version) := by
  rw [markChangedFrom]
  dsimp only
  rw [if_neg fun h => hs (by simpa [Node.Stamped] using h)]
  rfl

theorem eq_of_stamped_flag (hnot : ¬(store.node node).Stamped version)
    (hs : ((store.update id (Node.flag version)).node node).Stamped version) : node = id := by
  by_contra hne
  rw [node_update_ne _ hne] at hs
  exact hnot hs

theorem lt_size_of_above (h : (store.node id).above = some node) : id < store.size := by
  by_contra hle
  rw [node_of_size_le (Nat.le_of_not_lt hle)] at h
  cases h

-- A walk up stamps the node that it begins with, and what is above any other node that it
-- stamps. With each node there are fewer left, so that it is not cut short.
theorem walk_markChangedFrom {fuel : Nat} (hfuel : (store.unstamped version).card ≤ fuel) :
    (id < store.size → ((markChangedFrom version fuel id store).node id).Stamped version) ∧
      ∀ node above, ¬(store.node node).Stamped version →
        ((markChangedFrom version fuel id store).node node).Stamped version → (store.node node).above = some above →
        above < store.size → ((markChangedFrom version fuel id store).node above).Stamped version := by
  induction fuel generalizing id store with
  | zero =>
      refine ⟨fun hlt => ?_, fun node above hnot hs => absurd hs hnot⟩
      have hempty := Finset.card_eq_zero.mp (Nat.le_zero.mp hfuel)
      by_contra hnot
      have hmem := mem_unstamped.mpr ⟨hlt, hnot⟩
      rw [hempty] at hmem
      exact absurd hmem (Finset.notMem_empty id)
  | succ fuel ih =>
      by_cases hs : (store.node id).Stamped version
      · rw [markChangedFrom_of_stamped hs]
        exact ⟨fun _ => hs, fun node above hnot hs => absurd hs hnot⟩
      · rw [markChangedFrom_of_not_stamped hs]
        cases habove : (store.node id).above with
        | none =>
            refine ⟨stamped_flag, fun node above hnot hs hnode _ => ?_⟩
            rw [eq_of_stamped_flag hnot hs, habove] at hnode
            cases hnode
        | some first =>
            have hlt := lt_size_of_above habove
            have hcard : ((store.update id (Node.flag version)).unstamped version).card ≤ fuel := by
              rw [unstamped_flag, Finset.card_erase_of_mem (mem_unstamped.mpr ⟨hlt, hs⟩)]
              omega
            obtain ⟨hfirst, hrest⟩ := @ih (store.update id (Node.flag version)) first hcard
            rw [size_update] at hfirst hrest
            refine ⟨fun _ => stamped_markChangedFrom (stamped_flag hlt), fun node above hnot hs hnode habovelt => ?_⟩
            by_cases hlast : ((store.update id (Node.flag version)).node node).Stamped version
            · rw [eq_of_stamped_flag hnot hlast, habove] at hnode
              obtain rfl := Option.some_inj.mp hnode
              exact hfirst habovelt
            · exact hrest node above hlast hs (above_flag.trans hnode) habovelt

-- Whether one goes up from a node to another, past nodes that had not been stamped in a
-- store from before.
def Attains (store former : Store) (version : Nat) : Nat → Nat → Prop :=
  Relation.ReflTransGen fun id above => (store.node id).above = some above ∧ ¬(former.node id).Stamped version

-- So only a node that has been stamped already stops a walk up.
theorem stamped_markChanged (ha : store.Attains store version id node) (hlt : node < store.size) :
    ((store.markChanged id version).node node).Stamped version := by
  have hcard : (store.unstamped version).card ≤ store.size := by
    refine (Finset.card_filter_le _ _).trans ?_
    rw [Finset.card_range]
  obtain ⟨hself, hwalk⟩ := @walk_markChangedFrom store id version store.size hcard
  induction ha with
  | refl => exact hself hlt
  | @tail last above _ hstep ih =>
      obtain ⟨habove, hnot⟩ := hstep
      exact hwalk last above hnot (ih (lt_size_of_above habove)) habove hlt

end Store

end IncrementalLR
