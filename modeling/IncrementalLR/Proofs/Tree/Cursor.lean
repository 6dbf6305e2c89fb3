import IncrementalLR.Document
import IncrementalLR.Proofs.Tree.Linked

namespace IncrementalLR

-- What is still to come of the children of a node.
structure Level where
  parent : Nat
  rest : Forest

namespace Level

-- All that is still to come, from the innermost level on.
def ahead (levels : List Level) : Forest := levels.foldr (fun level forest => level.rest ++ forest) .nil

def parents (levels : List Level) : List Nat := levels.map parent

@[simp] theorem parents_cons {level : Level} {levels : List Level} :
    parents (level :: levels) = level.parent :: parents levels := rfl

@[simp] theorem ahead_cons {level : Level} {levels : List Level} :
    ahead (level :: levels) = level.rest ++ ahead levels := rfl

end Level

-- The label of the root of a document, flagged or not.
def Document.rootLabel : Label := ⟨Document.rootSymbol, none, "", false⟩

namespace Store

-- Where the nodes of a tree lead to the right: along the rest of the children of
-- a node, and then along what stands behind that node.
inductive Cursor (store : Store) (root : Nat) : List Level → Prop where
  | root {left : Option Nat} {rest : Forest} :
      (store.view root).label.parsed = Document.rootLabel → (store.view root).parent = none →
      (store.view root).right = none → store.Linked root left rest → Cursor store root [⟨root, rest⟩]
  | inside {parent : Nat} {left : Option Nat} {rest : Forest} {above : Level} {levels : List Level} :
      (store.view parent).parent = some above.parent →
      (store.view parent).right = above.rest.roots.head? →
      store.Linked parent left rest → Cursor store root (above :: levels) →
      Cursor store root (⟨parent, rest⟩ :: above :: levels)

namespace Cursor

variable {store other : Store} {root parent : Nat} {level : Level} {levels : List Level} {tree : Tree}
  {rest after : Forest}

theorem congr (hc : store.Cursor root levels)
    (hp : ∀ id ∈ Level.parents levels, (other.view id).parsed = (store.view id).parsed)
    (ha : ∀ id ∈ (Level.ahead levels).ids, other.view id = store.view id) :
    other.Cursor root levels := by
  induction hc with
  | root hlabel hparent hright hl =>
      have hroot := hp root List.mem_cons_self
      have ⟨hup, hon, _⟩ := View.links_of_parsed hroot
      refine .root ?_ (hup.trans hparent) (hon.trans hright) (hl.congr fun id h => ha id ?_)
      · exact (congrArg View.label hroot).trans hlabel
      simpa [Level.ahead] using h
  | inside hparent hright hl _ ih =>
      have ⟨hup, hon, _⟩ := View.links_of_parsed (hp _ List.mem_cons_self)
      refine .inside (hup.trans hparent) (hon.trans hright) (hl.congr fun id h => ha id ?_)
        (ih (fun id h => hp id (List.mem_cons_of_mem _ h)) fun id h => ha id ?_)
      · rw [Level.ahead_cons, Forest.ids_append]
        exact List.mem_append_left _ h
      · rw [Level.ahead_cons, Forest.ids_append]
        exact List.mem_append_right _ h

theorem linked (hc : store.Cursor root (level :: levels)) :
    ∃ left, store.Linked level.parent left level.rest := by
  cases hc with
  | root _ _ _ hl => exact ⟨_, hl⟩
  | inside _ _ hl _ => exact ⟨_, hl⟩

theorem kept (hc : store.Cursor root levels) : store.Kept (Level.ahead levels) := by
  induction hc with
  | root _ _ _ hl => simpa [Level.ahead] using hl.kept
  | inside _ _ hl _ ih => exact kept_append.mpr ⟨hl.kept, ih⟩

theorem root_mem (hc : store.Cursor root levels) : root ∈ Level.parents levels := by
  induction hc with
  | root _ _ _ _ => simp [Level.parents]
  | inside _ _ _ _ ih => exact List.mem_cons_of_mem _ ih

theorem root_view (hc : store.Cursor root levels) :
    (store.view root).label.parsed = Document.rootLabel ∧ (store.view root).parent = none ∧
      (store.view root).right = none := by
  induction hc with
  | root hlabel hparent hright _ => exact ⟨hlabel, hparent, hright⟩
  | inside _ _ _ _ ih => exact ih

theorem behind (hc : store.Cursor root (⟨parent, tree.before after⟩ :: levels)) :
    store.Cursor root (⟨parent, after⟩ :: levels) := by
  cases hc with
  | root hlabel hparent hright hl =>
      exact .root hlabel hparent hright (linked_before.mp hl).2.2.2.2
  | inside hparent hright hl hc => exact .inside hparent hright (linked_before.mp hl).2.2.2.2 hc

theorem down {id : Nat} {symbol : Symbol} {changed : Bool} {below : Forest}
    (hc : store.Cursor root (⟨parent, .node id symbol changed below after⟩ :: levels)) :
    store.Cursor root (⟨id, below⟩ :: ⟨parent, after⟩ :: levels) := by
  obtain ⟨left, hview, -, hbelow, -⟩ := hc.linked
  have hc := @behind store root parent levels (.node id symbol changed below) after hc
  exact .inside (congrArg View.parent hview) (congrArg View.right hview) hbelow hc

-- The first tree to come stands on some level.
theorem settle (hc : store.Cursor root levels) (ha : Level.ahead levels = tree.before after) :
    ∃ parent rest outer, store.Cursor root (⟨parent, tree.before rest⟩ :: outer) ∧
      rest ++ Level.ahead outer = after ∧ parent :: Level.parents outer <:+ Level.parents levels := by
  have hfirst : ∀ {rest : Forest} {outer : List Level}, rest ++ Level.ahead outer = tree.before after →
      rest = .nil ∨ ∃ behind, rest = tree.before behind ∧ behind ++ Level.ahead outer = after := by
    intro rest outer h
    induction rest using Forest.spine_induction with
    | nil => exact Or.inl rfl
    | before first behind _ =>
        rw [Tree.before_append, Tree.before_inj] at h
        obtain ⟨rfl, h⟩ := h
        exact Or.inr ⟨behind, rfl, h⟩
  induction hc with
  | root hlabel hparent hright hl =>
      rcases hfirst ha with rfl | ⟨behind, rfl, h⟩
      · exact absurd ha.symm Tree.before_ne_nil
      · exact ⟨root, behind, [], .root hlabel hparent hright hl, h, List.suffix_rfl⟩
  | @inside parent left rest above levels hparent hright hl hc ih =>
      rcases hfirst ha with rfl | ⟨behind, rfl, h⟩
      · obtain ⟨inner, behind, outer, hc, h, hs⟩ := ih ha
        exact ⟨inner, behind, outer, hc, h, hs.trans (List.suffix_cons _ _)⟩
      · exact ⟨parent, behind, above :: levels, .inside hparent hright hl hc, h, List.suffix_rfl⟩

-- From a parent on, the next tree is the first one of the levels outside.
theorem followingFrom_parent (hc : store.Cursor root (level :: levels)) {fuel : Nat}
    (hf : levels.length ≤ fuel) :
    store.followingFrom fuel level.parent = (Level.ahead levels).roots.head? := by
  induction levels generalizing level fuel with
  | nil =>
      have ⟨_, hparent, hright⟩ := hc.root_view
      cases hc with
      | root _ _ _ _ =>
          cases fuel with
          | zero => rfl
          | succ fuel =>
              rw [followingFrom, show (store.node root).right = none from hright,
                show (store.node root).parent = none from hparent]
              rfl
  | cons above levels ih =>
      cases hc with
      | @inside parent left rest _ _ hparent hright _ hc =>
          obtain ⟨fuel, rfl⟩ := Nat.exists_eq_add_of_le' (Nat.le_trans (Nat.le_add_left 1 _) hf)
          rw [followingFrom, show (store.node parent).right = _ from hright,
            show (store.node parent).parent = _ from hparent, Option.bind_some,
            Level.ahead_cons, Forest.roots_append]
          cases hroots : above.rest.roots with
          | nil => exact ih hc (by simpa using hf)
          | cons first more => rfl

theorem followingFrom_tree (hc : store.Cursor root (⟨parent, tree.before after⟩ :: levels)) {fuel : Nat}
    (hf : levels.length < fuel) :
    store.followingFrom fuel tree.id = (after ++ Level.ahead levels).roots.head? := by
  obtain ⟨left, hl⟩ := hc.linked
  obtain ⟨-, hparent, -, hright, -⟩ := linked_before.mp hl
  obtain ⟨fuel, rfl⟩ := Nat.exists_eq_add_of_le' (Nat.one_le_of_lt hf)
  rw [followingFrom, show (store.node tree.id).right = _ from hright,
    show (store.node tree.id).parent = _ from hparent, Option.bind_some, Forest.roots_append]
  cases hroots : after.roots with
  | nil => exact hc.followingFrom_parent (by omega)
  | cons first more => rfl

end Cursor

-- Whether trees that are still to come can be walked to, apart from nodes that
-- have been taken out before them.
def Faces (store : Store) (root : Nat) (taken : List Nat) (forest : Forest) : Prop :=
  ∃ levels, store.Cursor root levels ∧ Level.ahead levels = forest ∧
    (taken ++ (Level.parents levels ++ forest.ids)).Nodup ∧
    ∀ id ∈ taken ++ (Level.parents levels ++ forest.ids), id < store.size

namespace Faces

variable {store other : Store} {root : Nat} {taken : List Nat} {forest after : Forest} {tree : Tree}

theorem kept (hf : store.Faces root taken forest) : store.Kept forest := by
  obtain ⟨levels, hc, rfl, -⟩ := hf
  exact hc.kept

theorem following? (hf : store.Faces root taken (tree.before after)) :
    store.following? tree.id = after.roots.head? := by
  obtain ⟨levels, hc, ha, hn, hlt⟩ := hf
  obtain ⟨parent, rest, outer, hc, rfl, hs⟩ := hc.settle ha
  refine hc.followingFrom_tree ?_
  have hparents := (List.nodup_append.mp (List.nodup_append.mp hn).2.1).1.sublist hs.sublist
  have hlength := length_le_size hparents fun id h =>
    hlt id (List.mem_append_right _ (List.mem_append_left _ (hs.subset h)))
  rw [List.length_cons, Level.parents, List.length_map] at hlength
  exact hlength

-- What has been taken out may be left out, as far as it is not needed.
theorem subset {others : List Nat} (hf : store.Faces root taken forest) (hn : others.Nodup)
    (hs : others ⊆ taken) : store.Faces root others forest := by
  obtain ⟨levels, hc, ha, hnodup, hlt⟩ := hf
  obtain ⟨-, hrest, hapart⟩ := List.nodup_append.mp hnodup
  refine ⟨levels, hc, ha, List.nodup_append.mpr ⟨hn, hrest, fun id h => hapart id (hs h)⟩, fun id h => ?_⟩
  exact hlt id (List.mem_append.mpr ((List.mem_append.mp h).imp_left fun h => hs h))

theorem perm {others : List Nat} (hf : store.Faces root taken forest) (hp : others.Perm taken) :
    store.Faces root others forest := by
  obtain ⟨levels, hc, ha, hn, hlt⟩ := hf
  have hall := hp.append_right (Level.parents levels ++ forest.ids)
  exact ⟨levels, hc, ha, hall.nodup_iff.mpr hn, fun id h => hlt id (hall.subset h)⟩

-- The first tree is taken out.
theorem take (hf : store.Faces root taken (tree.before after)) :
    store.Faces root (tree.forest.ids ++ taken) after := by
  obtain ⟨levels, hc, ha, hn, hlt⟩ := hf
  obtain ⟨parent, rest, outer, hc, rfl, hs⟩ := hc.settle ha
  rw [Tree.ids_before] at hn hlt
  have hparents := hs.sublist.append_right (tree.forest.ids ++ (rest ++ Level.ahead outer).ids)
  have hperm : (tree.forest.ids ++ taken ++ (parent :: Level.parents outer ++
      (rest ++ Level.ahead outer).ids)).Perm (taken ++ (parent :: Level.parents outer ++
      (tree.forest.ids ++ (rest ++ Level.ahead outer).ids))) := by
    refine (List.perm_append_comm.append_right _).trans ?_
    rw [List.append_assoc]
    refine List.Perm.append_left taken ?_
    rw [← List.append_assoc, ← List.append_assoc]
    exact List.perm_append_comm.append_right _
  refine ⟨⟨parent, rest⟩ :: outer, hc.behind, rfl, ?_, fun id h => hlt id ?_⟩
  · exact hperm.nodup_iff.mpr (hn.sublist (hparents.append_left taken))
  · exact (hparents.append_left taken).subset (hperm.subset h)

-- The walk goes on below a node instead.
theorem down {id : Nat} {symbol : Symbol} {changed : Bool} {below : Forest}
    (hf : store.Faces root taken (.node id symbol changed below after)) :
    store.Faces root taken (below ++ after) := by
  obtain ⟨levels, hc, ha, hn, hlt⟩ := hf
  obtain ⟨parent, rest, outer, hc, rfl, hs⟩ :=
    @Cursor.settle store root levels (.node id symbol changed below) after hc ha
  have hparents := hs.sublist.append_right (id :: (below.ids ++ (rest ++ Level.ahead outer).ids))
  have hperm : (id :: parent :: Level.parents outer ++
      (below ++ (rest ++ Level.ahead outer)).ids).Perm (parent :: Level.parents outer ++
      (id :: (below.ids ++ (rest ++ Level.ahead outer).ids))) := by
    rw [Forest.ids_append]
    exact List.perm_middle.symm
  have hall := hperm.append_left taken
  refine ⟨⟨id, below⟩ :: ⟨parent, rest⟩ :: outer, hc.down, rfl, ?_, fun other h => hlt other ?_⟩
  · exact hall.nodup_iff.mpr (hn.sublist (hparents.append_left taken))
  · exact (hparents.append_left taken).subset (hall.subset h)

-- Nodes that have been taken out may change, and those on the way up may be
-- flagged.
theorem congr (hf : store.Faces root taken forest) (hsize : store.size ≤ other.size)
    (hp : ∀ id, id < store.size → id ∉ taken → (other.view id).parsed = (store.view id).parsed)
    (hv : ∀ id ∈ forest.ids, other.view id = store.view id) : other.Faces root taken forest := by
  obtain ⟨levels, hc, rfl, hn, hlt⟩ := hf
  refine ⟨levels, hc.congr (fun id h => hp id (hlt id ?_) fun ht => ?_) hv, rfl, hn, fun id h => ?_⟩
  · exact List.mem_append_right _ (List.mem_append_left _ h)
  · exact (List.nodup_append.mp hn).2.2 id ht id (List.mem_append_left _ h) rfl
  · exact Nat.lt_of_lt_of_le (hlt id h) hsize

theorem not_mem_taken (hf : store.Faces root taken forest) {id : Nat} (h : id ∈ forest.ids) :
    id ∉ taken := by
  obtain ⟨levels, -, -, hn, -⟩ := hf
  exact fun ht => (List.nodup_append.mp hn).2.2 id ht id (List.mem_append_right _ h) rfl

theorem nodup (hf : store.Faces root taken forest) : (taken ++ forest.ids).Nodup := by
  obtain ⟨levels, -, -, hn, -⟩ := hf
  exact hn.sublist ((List.sublist_append_right _ _).append_left taken)

theorem lt_size (hf : store.Faces root taken forest) : ∀ id ∈ taken ++ forest.ids, id < store.size := by
  obtain ⟨levels, -, -, -, hlt⟩ := hf
  exact fun id h => hlt id (((List.sublist_append_right _ _).append_left taken).subset h)

-- A node that is not in the store yet counts as taken out once it is.
theorem fresh (hf : store.Faces root taken forest) (node : Node) :
    (store.push node).Faces root (store.size :: taken) forest := by
  have ⟨levels, hc, ha, hn, hlt⟩ := hf
  have hview : ∀ id ∈ Level.parents levels ++ forest.ids, (store.push node).view id = store.view id :=
    fun id h => view_push_lt node (hlt id (List.mem_append_right _ h))
  refine ⟨levels, hc.congr (fun id h => ?_) (fun id h => hview id (List.mem_append_right _ (ha ▸ h))), ha,
    ?_, fun id h => ?_⟩
  · rw [hview id (List.mem_append_left _ h)]
  · exact List.nodup_cons.mpr ⟨fun h => Nat.lt_irrefl _ (hlt _ h), hn⟩
  · rw [size_push]
    rcases List.mem_cons.mp h with rfl | h
    · exact Nat.lt_succ_self _
    · exact Nat.lt_succ_of_lt (hlt id h)

-- The first leaf is where a walk down and to the right ends.
theorem terminalFrom (hf : store.Faces root taken (tree.before after)) {fuel first : Nat}
    (h : store.terminalFrom fuel tree.id = some first) :
    (tree.before after).leaves.head?.map Prod.fst = some first := by
  induction fuel generalizing tree after with
  | zero => cases h
  | succ fuel ih =>
      have hheld := (kept_before.mp hf.kept).1
      cases tree with
      | leaf id label =>
          obtain ⟨hlabel, -, hleaf⟩ := hheld
          have hsymbol : (store.node id).isLeaf = true := by
            rw [Node.isLeaf, show (store.node id).symbol = label.symbol from congrArg Label.symbol hlabel,
              hleaf]
            rfl
          rw [Store.terminalFrom, Tree.id, if_pos hsymbol] at h
          simpa [Tree.before, Forest.leaves] using h
      | node id symbol changed below =>
          -- the walk goes on to the first child, or to what comes behind
          obtain ⟨hlabel, hchildren, hnode, -⟩ := hheld
          have hsymbol : (store.node id).isLeaf = false := by
            rw [Node.isLeaf, show (store.node id).symbol = symbol from congrArg Label.symbol hlabel, hnode]
            rfl
          have hdown := hf.down
          rw [Store.terminalFrom, Tree.id, hsymbol, if_neg Bool.false_ne_true,
            show (store.node id).children = below.roots from hchildren] at h
          induction below using Forest.spine_induction with
          | nil =>
              rw [Forest.roots, show id = (Tree.node id symbol changed .nil).id from rfl] at h
              rw [Forest.nil_append] at hdown
              simp only at h
              rw [hf.following?] at h
              induction after using Forest.spine_induction with
              | nil => cases h
              | before next after _ =>
                  rw [Tree.roots_before] at h
                  have hfirst := ih hdown h
                  exact hfirst
          | before next behind _ =>
              rw [Tree.roots_before] at h
              rw [Tree.before_append] at hdown
              have hfirst := ih hdown h
              rw [← Tree.before_append] at hfirst
              rwa [Forest.leaves_append] at hfirst

end Faces

end Store

end IncrementalLR
