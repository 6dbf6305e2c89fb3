import IncrementalLR.Proofs.Grammar.WellFormed
import IncrementalLR.Proofs.Parse.Scene
import IncrementalLR.Proofs.Tree.Division

namespace IncrementalLR

namespace Store

variable {store other : Store} {id : Nat}

theorem Holds.key {tree : Tree} (hh : store.Holds tree) : (store.node tree.id).key = tree.label.key := by
  have hlabel : (store.node tree.id).label = tree.label := by
    cases tree with
    | leaf id label => exact hh.1
    | node id symbol changed below => exact hh.1
  rw [← hlabel]
  rfl

-- A walk to the right needs only the links up and to the right.
theorem following?_congr (hsize : other.size = store.size)
    (hlinks : ∀ id, (other.view id).parsed = (store.view id).parsed) :
    other.following? id = store.following? id := by
  have hfrom : ∀ fuel id, other.followingFrom fuel id = store.followingFrom fuel id := by
    intro fuel
    induction fuel with
    | zero => exact fun _ => rfl
    | succ fuel ih =>
        intro id
        have ⟨hparent, hright, _, _⟩ := View.links_of_parsed (hlinks id)
        rw [followingFrom, followingFrom, show (other.node id).right = (store.node id).right from hright,
          show (other.node id).parent = (store.node id).parent from hparent]
        split
        · rfl
        · exact congrArg _ (funext ih)
  rw [following?, following?, hsize, hfrom]

end Store

namespace Run

variable {run : Run} {id other : Nat}

theorem view_clearChanged :
    (run.clearChanged id).store.view other =
      if other = id then
        { run.store.view other with label := (run.store.view other).label.parsed }
      else run.store.view other := by
  unfold clearChanged
  by_cases hchanged : (run.node id).changed = true
  · rw [if_pos hchanged]
    have hlt : id < run.store.size := by
      by_contra hge
      have hdefault : run.node id = default := by
        simp [node, Store.node, show run.store.nodes.size ≤ id from Nat.not_lt.mp hge]
      rw [hdefault] at hchanged
      cases hchanged
    change (run.store.setChanged id false).view other = _
    rw [Store.view_setChanged]
    by_cases he : other = id
    · rw [if_pos ⟨he, hlt⟩, if_pos he]
      rfl
    · rw [if_neg fun h => he h.1, if_neg he]
  · rw [if_neg hchanged]
    by_cases he : other = id
    · subst he
      have hflag : (run.store.view other).label.changed = false :=
        eq_false_of_ne_true hchanged
      have hsame : (run.store.view other).label.parsed = (run.store.view other).label := by
        rw [Label.parsed, ← hflag]
      rw [if_pos rfl, hsame]
    · rw [if_neg he]

@[simp] theorem size_clearChanged : (run.clearChanged id).store.size = run.store.size := by
  rw [clearChanged]
  split
  · exact Store.size_setChanged _
  · rfl

@[simp] theorem stack_clearChanged : (run.clearChanged id).stack = run.stack := by
  rw [clearChanged]
  split
  · rfl
  · rfl

@[simp] theorem validating_clearChanged : (run.clearChanged id).validating = run.validating := by
  rw [clearChanged]
  split
  · rfl
  · rfl

@[simp] theorem brokeDown_clearChanged : (run.clearChanged id).brokeDown = run.brokeDown := by
  rw [clearChanged]
  split
  · rfl
  · rfl

end Run

-- Whether no tree is other than before, whatever lies on the stack.
structure Quiet (run after : Run) : Prop where
  size : after.store.size = run.store.size
  view : ∀ id, after.store.view id = run.store.view id
  validating : after.validating = run.validating
  brokeDown : after.brokeDown = run.brokeDown

theorem Quiet.trans {run middle after : Run} (hfirst : Quiet run middle) (hsecond : Quiet middle after) :
    Quiet run after :=
  ⟨hsecond.size.trans hfirst.size, fun id => (hsecond.view id).trans (hfirst.view id),
    hsecond.validating.trans hfirst.validating, hsecond.brokeDown.trans hfirst.brokeDown⟩

theorem Quiet.kept {run after : Run} (hq : Quiet run after) {forest : Forest}
    (hk : run.store.Kept forest) : after.store.Kept forest := hk.of_view hq.view

-- Whether a run stands as before, whatever has become of its nodes.
structure Steady (run after : Run) : Prop where
  size : after.store.size = run.store.size
  stack : after.stack = run.stack
  validating : after.validating = run.validating
  brokeDown : after.brokeDown = run.brokeDown

theorem Steady.trans {run middle after : Run} (hfirst : Steady run middle) (hsecond : Steady middle after) :
    Steady run after :=
  ⟨hsecond.size.trans hfirst.size, hsecond.stack.trans hfirst.stack, hsecond.validating.trans hfirst.validating,
    hsecond.brokeDown.trans hfirst.brokeDown⟩

theorem steady_clearChanged (id : Nat) (run : Run) : Steady run (run.clearChanged id) :=
  ⟨Run.size_clearChanged, Run.stack_clearChanged, Run.validating_clearChanged, Run.brokeDown_clearChanged⟩

-- Whether all links are as before, and all nodes but one.
structure Relabels (id : Nat) (store other : Store) : Prop where
  size : other.size = store.size
  links : ∀ node, (other.view node).parsed = (store.view node).parsed
  view_ne : ∀ node, node ≠ id → other.view node = store.view node

theorem Relabels.of_view {id : Nat} {store other : Store} (hsize : other.size = store.size)
    (hview : ∀ node, other.view node = store.view node) : Relabels id store other :=
  ⟨hsize, fun node => by rw [hview], fun node _ => hview node⟩

-- Whether one node has lost its flag and all else is as before.
structure Unflags (id : Nat) (store other : Store) : Prop where
  size : other.size = store.size
  view : ∀ node, other.view node =
    if node = id then { store.view node with label := (store.view node).label.parsed }
    else store.view node

theorem unflags_clearChanged (id : Nat) (run : Run) : Unflags id run.store (run.clearChanged id).store :=
  ⟨Run.size_clearChanged, fun _ => Run.view_clearChanged⟩

namespace Unflags

variable {id : Nat} {store other : Store}

theorem trans {run after : Run} (hu : Unflags id store run.store) (hq : Quiet run after) :
    Unflags id store after.store :=
  ⟨hq.size.trans hu.size, fun node => (hq.view node).trans (hu.view node)⟩

theorem view_ne (hu : Unflags id store other) {node : Nat} (hne : node ≠ id) :
    other.view node = store.view node := by
  rw [hu.view, if_neg hne]

theorem view_self (hu : Unflags id store other) :
    other.view id = { store.view id with label := (store.view id).label.parsed } := by
  rw [hu.view, if_pos rfl]

theorem links (hu : Unflags id store other) (node : Nat) :
    (other.view node).parsed = (store.view node).parsed := by
  by_cases he : node = id
  · rw [he, hu.view_self]
    rfl
  · rw [hu.view_ne he]

theorem relabels (hu : Unflags id store other) : Relabels id store other :=
  ⟨hu.size, hu.links, fun _ h => hu.view_ne h⟩

theorem holds {label : Label} (hu : Unflags id store other) (hh : store.Holds (.leaf id label)) :
    other.Holds (.leaf id label.parsed) := by
  obtain ⟨hlabel, hchildren, hleaf⟩ := hh
  refine ⟨?_, ?_, hleaf⟩
  · rw [hu.view_self, hlabel]
  · rw [hu.view_self, hchildren]

end Unflags

section Breakdown

variable {setting : Setting} {run after : Run} {pieces : List Piece} {tree : Tree} {forest before : Forest}
  {shifted : Bool}

theorem quiet_setState (run : Run) (id state : Nat) : Quiet run (run.setState id state) :=
  ⟨Store.size_setState state, fun _ => Store.view_setState state, rfl, rfl⟩

theorem quiet_pushSymbol (run : Run) (id state : Nat) : Quiet run (run.pushSymbol id state) :=
  ⟨Store.size_setState state, fun _ => Store.view_setState state, rfl, rfl⟩

theorem quiet_pushPassed (run : Run) (id : Nat) : Quiet run (run.pushPassed id) :=
  ⟨Store.size_setState _, fun _ => Store.view_setState _, rfl, rfl⟩

theorem passes_of_holds (hh : run.store.Holds tree) :
    setting.isPassThrough (run.node tree.id) = setting.passes tree.label := by
  have hlabel : (run.node tree.id).label = tree.label := by
    cases tree with
    | leaf id label => exact hh.1
    | node id symbol changed below => exact hh.1
  rw [Setting.passes, ← hlabel]
  rfl

theorem shiftAgain_spec (hstack : run.stack = pieces.map Piece.frame) (hh : run.store.Holds tree)
    (hs : setting.shiftAgain run tree.id = (after, shifted)) :
    Quiet run after ∧ (shifted = true → ∃ others, setting.again? tree pieces = some others ∧
      after.stack = others.map Piece.frame) := by
  have hkey : (run.node tree.id).key = tree.label.key := hh.key
  have hpush : ∀ state, (run.pushSymbol tree.id state).stack =
      (Piece.symbol tree state :: pieces).map Piece.frame := by
    intro state
    rw [List.map_cons, ← hstack]
    rfl
  have hpass : (run.pushPassed tree.id).stack =
      (Piece.passed tree (Piece.top pieces) :: pieces).map Piece.frame := by
    rw [List.map_cons, ← hstack, ← Piece.state_frames, ← hstack]
    rfl
  have hpassed : (if setting.passes tree.label then (run.pushPassed tree.id, true) else (run, false)) = (after, shifted) →
      Quiet run after ∧ (shifted = true → ∃ others,
        (if setting.passes tree.label then some (Piece.passed tree (Piece.top pieces) :: pieces) else none) =
          some others ∧ after.stack = others.map Piece.frame) := by
    intro hs
    split at hs
    · rename_i hpasses
      obtain ⟨rfl, rfl⟩ := Prod.mk.inj hs
      exact ⟨quiet_pushPassed _ _, fun _ => ⟨_, if_pos hpasses, hpass⟩⟩
    · obtain ⟨rfl, rfl⟩ := Prod.mk.inj hs
      exact ⟨⟨rfl, fun _ => rfl, rfl, rfl⟩, nofun⟩
  unfold Setting.shiftAgain at hs
  unfold Setting.again? Setting.lookup?
  rw [Setting.action?, hkey, hstack, Piece.state_frames, passes_of_holds hh] at hs
  generalize setting.table.lookup? (Piece.top pieces) tree.label.key = action at hs ⊢
  match action, hs with
  | some (.shift next), hs | some (.goto next), hs =>
      obtain ⟨rfl, rfl⟩ := Prod.mk.inj hs
      exact ⟨quiet_pushSymbol _ _ _, fun _ => ⟨_, rfl, hpush next⟩⟩
  | none, hs | some (.reduce _), hs | some .accept, hs => exact hpassed hs

theorem shiftAllAgain_spec (hstack : run.stack = pieces.map Piece.frame) (hk : run.store.Kept forest)
    (hs : setting.shiftAllAgain run forest.roots = (after, shifted)) :
    Quiet run after ∧ (shifted = true → ∃ others, setting.allAgain? forest pieces = some others ∧
      after.stack = others.map Piece.frame) := by
  induction forest using Forest.spine_induction generalizing run pieces with
  | nil =>
      obtain ⟨rfl, rfl⟩ := Prod.mk.inj hs
      exact ⟨⟨rfl, fun _ => rfl, rfl, rfl⟩, fun _ => ⟨pieces, rfl, hstack⟩⟩
  | before tree rest ih =>
      obtain ⟨hh, hrest⟩ := Store.kept_before.mp hk
      rw [Tree.roots_before, Setting.shiftAllAgain] at hs
      split at hs
      · rename_i middle hfirst
        obtain ⟨hq, hagain⟩ := shiftAgain_spec hstack hh hfirst
        obtain ⟨others, hothers, hmiddle⟩ := hagain rfl
        obtain ⟨hq', hall⟩ := ih hmiddle (hq.kept hrest) hs
        refine ⟨hq.trans hq', fun h => ?_⟩
        rw [allAgain?_before, hothers, Option.bind_some]
        exact hall h
      · rename_i middle hfirst
        obtain ⟨rfl, rfl⟩ := Prod.mk.inj hs
        exact ⟨(shiftAgain_spec hstack hh hfirst).1, nofun⟩

theorem action_of_wildcardTarget? {target : Nat} (h : setting.wildcardTarget? run = some target) :
    ∃ reach, setting.action? run (.wildcard reach) = some (.shift target) := by
  obtain ⟨symbol, hmem, hsymbol⟩ := List.exists_of_findSome?_eq_some h
  split at hsymbol
  · rename_i haction
    obtain rfl := Option.some_inj.mp hsymbol
    simp only [Setting.wildcards, List.mem_cons, List.not_mem_nil, or_false] at hmem
    rcases hmem with rfl | rfl
    · exact ⟨_, haction⟩
    · exact ⟨_, haction⟩
  · cases hsymbol

theorem breakDownRightFrom_spec {fuel : Nat} (hstack : run.stack = pieces.map Piece.frame)
    (hk : run.store.Kept (Piece.contents before pieces))
    (hs : setting.breakDownRightFrom fuel run = (after, shifted)) :
    Quiet run after ∧ (shifted = true → ∃ others, setting.BreaksDown pieces others ∧
      after.stack = others.map Piece.frame) := by
  induction fuel generalizing run pieces with
  | zero =>
      obtain ⟨rfl, rfl⟩ := Prod.mk.inj hs
      exact ⟨⟨rfl, fun _ => rfl, rfl, rfl⟩, nofun⟩
  | succ fuel ih =>
      rw [Setting.breakDownRightFrom, hstack] at hs
      cases pieces with
      | nil =>
          obtain ⟨rfl, rfl⟩ := Prod.mk.inj hs
          exact ⟨⟨rfl, fun _ => rfl, rfl, rfl⟩, nofun⟩
      | cons piece below =>
          obtain ⟨hbelow, hpiece⟩ := Store.kept_append.mp hk
          rw [List.map_cons] at hs
          dsimp only at hs
          generalize hpopped : ({ run with stack := below.map Piece.frame } : Run) = popped at hs
          have hpop : Quiet run popped := by
            subst hpopped
            exact ⟨rfl, fun _ => rfl, rfl, rfl⟩
          have hrest : popped.stack = below.map Piece.frame := by
            rw [← hpopped]
          cases piece with
          | symbol tree state =>
              have hh := (Store.kept_forest.mp hpiece).of_view hpop.view
              simp only [Piece.frame] at hs
              cases tree with
              | leaf id label =>
                  rw [if_pos (by exact hh.isLeaf)] at hs
                  obtain ⟨hq, hagain⟩ := shiftAgain_spec hrest hh hs
                  refine ⟨hpop.trans hq, fun h => ?_⟩
                  obtain ⟨others, hothers, hafter⟩ := hagain h
                  exact ⟨others, .leaf hothers, hafter⟩
              | node id symbol changed children =>
                  have hleaf : ¬(popped.node (Tree.node id symbol changed children).id).isLeaf = true :=
                    ne_true_of_eq_false hh.not_isLeaf
                  have hchildren : (popped.node (Tree.node id symbol changed children).id).children =
                    children.roots := hh.2.1
                  rw [if_neg hleaf, hchildren] at hs
                  split at hs
                  · rename_i middle hall
                    obtain ⟨hq, hmiddle⟩ := shiftAllAgain_spec hrest hh.2.2.2.kept hall
                    obtain ⟨pieces, hpieces, hmiddle⟩ := hmiddle rfl
                    have hkept : middle.store.Kept (Piece.contents before pieces) := by
                      rw [contents_allAgain? hpieces]
                      exact hq.kept (Store.kept_append.mpr ⟨hpop.kept hbelow, hh.2.2.2.kept⟩)
                    obtain ⟨hq', hdown⟩ := ih hmiddle hkept hs
                    refine ⟨hpop.trans (hq.trans hq'), fun h => ?_⟩
                    obtain ⟨others, hothers, hafter⟩ := hdown h
                    exact ⟨others, .node hpieces hothers, hafter⟩
                  · rename_i middle hall
                    obtain ⟨rfl, rfl⟩ := Prod.mk.inj hs
                    exact ⟨hpop.trans (shiftAllAgain_spec hrest hh.2.2.2.kept hall).1, nofun⟩
          | span leaves state =>
              simp only [Piece.frame] at hs
              split at hs
              · rename_i target htarget
                obtain ⟨rfl, rfl⟩ := Prod.mk.inj hs
                obtain ⟨reach, haction⟩ := action_of_wildcardTarget? htarget
                rw [Setting.action?, hrest, Piece.state_frames] at haction
                refine ⟨⟨rfl, fun _ => rfl, rfl, rfl⟩, fun _ => ?_⟩
                exact ⟨.span leaves target :: below, .span haction, rfl⟩
              · obtain ⟨rfl, rfl⟩ := Prod.mk.inj hs
                exact ⟨hpop, nofun⟩
          | passed tree state =>
              simp only [Piece.frame, Prod.mk.injEq] at hs
              obtain ⟨rfl, rfl⟩ := hs
              refine ⟨hpop.trans (quiet_pushPassed _ _), fun _ => ?_⟩
              refine ⟨.passed tree (Piece.top below) :: below, .passed, ?_⟩
              rw [Run.pushPassed, hrest, Piece.state_frames]
              rfl

end Breakdown

section Walk

variable {setting : Setting} {root : Nat} {taken ahead after : Forest} {run other : Run} {tree : Tree}

theorem next_of_divides {id : Nat} (hd : run.store.Divides root taken (tree.before after))
    (hr : Relabels id run.store other.store) :
    setting.next other tree.id =
      match after.roots.head? with
      | some next => .ok next
      | none => .error (other, .malformedRoot setting.document.root) := by
  have hfollowing : other.store.following? tree.id = after.roots.head? :=
    (Store.following?_congr hr.size hr.links).trans hd.faces.following?
  unfold Setting.next
  cases hhead : after.roots.head? with
  | none => simp only [hfollowing, hhead]
  | some next => simp only [hfollowing, hhead]

theorem breakDownLeft_spec {id : Nat} {symbol : Symbol} {changed : Bool} {below : Forest}
    (hd : run.store.Divides root taken (.node id symbol changed below after))
    (hr : Relabels id run.store other.store) :
    match setting.breakDownLeft other id with
    | .ok (broken, next) => (∃ metrics, broken = { other with metrics := metrics }) ∧
        other.store.Divides root taken (below ++ after) ∧ (below ++ after).roots.head? = some next
    | .error _ => below = .nil ∧ after = .nil := by
  have htree : run.store.Divides root taken ((Tree.node id symbol changed below).before after) := hd
  have hdown := hd.down hr.size hr.view_ne (hr.links id)
  have ⟨_, _, hchildren, _⟩ := View.links_of_parsed (hr.links id)
  have hroots : (other.node id).children = below.roots := hchildren.trans htree.holds.2.1
  unfold Setting.breakDownLeft
  simp only [Run.count, Run.node] at hroots ⊢
  rw [hroots]
  induction below using Forest.spine_induction with
  | nil =>
      have hnext := @next_of_divides setting root taken after run
        { other with metrics := { other.metrics with leftBreakdowns := other.metrics.leftBreakdowns + 1 } }
        (.node id symbol changed .nil) id htree hr
      simp only [Forest.roots]
      rw [show id = (Tree.node id symbol changed .nil).id from rfl, hnext]
      induction after using Forest.spine_induction with
      | nil => exact ⟨trivial, rfl⟩
      | before next behind _ =>
          rw [Tree.roots_before]
          exact ⟨⟨_, rfl⟩, hdown, by simp⟩
  | before child behind _ =>
      rw [Tree.roots_before]
      exact ⟨⟨_, rfl⟩, hdown, by simp⟩

-- The reduction before a subtree is one before its first leaf.
theorem reduceBefore_spec {id production : Nat} {symbol : Symbol} {changed : Bool} {below : Forest}
    (hd : run.store.Divides root taken (.node id symbol changed below after))
    (hb : setting.reduceBefore? run id = some production) :
    ∃ first, (Forest.node id symbol changed below after).leaves.head? = some first ∧
      setting.action? run first.2.key = some (.reduce production) := by
  obtain ⟨first, hterminal, haction⟩ := Option.bind_eq_some_iff.mp hb
  have hfirst := @Store.Faces.terminalFrom run.store root taken.ids after (.node id symbol changed below)
    hd.faces _ _ hterminal
  obtain ⟨entry, hentry, rfl⟩ := Option.map_eq_some_iff.mp hfirst
  refine ⟨entry, hentry, ?_⟩
  have hlabel := hd.faces.kept.label (List.mem_of_mem_head? hentry)
  rw [Run.node, show (run.store.node entry.1).key = entry.2.key from congrArg Label.key hlabel] at haction
  split at haction
  · rename_i action h
    rw [h, Option.some_inj.mp haction]
  · cases haction

-- Whether a node ends a wildcard is a matter of its label.
theorem endsSpan_of_holds {target : Nat} {reach : Reach} (hh : run.store.Holds tree) :
    setting.endsSpan target reach (run.node tree.id) = setting.table.endsSpan target reach tree.label := by
  have hlabel : (run.node tree.id).label = tree.label := by
    cases tree with
    | leaf id label => exact hh.1
    | node id symbol changed below => exact hh.1
  rw [← hlabel]
  rfl

-- What a wildcard takes of the trees to come: the leaves before the first one to end it.
-- It fails only if no leaf does.
inductive Takes (setting : Setting) (root target : Nat) (reach : Reach) (fuel : Nat) (taken ahead : Forest)
    (nodes : List Nat) (run : Run) : Progress (List Nat × Run × Nat) → Prop where
  | ended {leaves : List (Nat × Label)} {rest : Forest} {last : Run} {next : Nat} :
      Spans ahead leaves rest → (∀ entry ∈ leaves, setting.table.endsSpan target reach entry.2 = false) →
      (ahead.ids.length < fuel →
        ∃ id label after, rest = .leaf id label after ∧ setting.table.endsSpan target reach label = true) →
      last.store.Divides root (taken ++ .ofLeaves leaves) rest → rest.roots.head? = some next → Steady run last →
      Takes setting root target reach fuel taken ahead nodes run (.ok (nodes ++ leaves.map Prod.fst, last, next))
  | endless {result : Run × Fault} :
      (∀ entry ∈ ahead.leaves, setting.table.endsSpan target reach entry.2 = false) →
      Takes setting root target reach fuel taken ahead nodes run (.error result)

section

variable {target fuel id next : Nat} {reach : Reach} {nodes : List Nat} {label : Label}
  {result : Progress (List Nat × Run × Nat)}

theorem Takes.nothing (hd : run.store.Divides root taken ahead) (hid : ahead.roots.head? = some next)
    (hends : ahead.ids.length < fuel →
      ∃ id label after, ahead = .leaf id label after ∧ setting.table.endsSpan target reach label = true) :
    Takes setting root target reach fuel taken ahead nodes run (.ok (nodes, run, next)) := by
  have hd' : run.store.Divides root (taken ++ .ofLeaves []) ahead := by simpa [Forest.ofLeaves] using hd
  have h := @Takes.ended setting root target reach fuel taken ahead nodes run _ _ _ _ .done
    (List.forall_mem_nil _) hends hd' hid ⟨rfl, rfl, rfl, rfl⟩
  rwa [List.map_nil, List.append_nil] at h

-- One more leaf goes into a wildcard.
theorem Takes.leaf (hends : setting.table.endsSpan target reach label = false) (hsteady : Steady run other)
    (ht : Takes setting root target reach fuel (taken ++ (Tree.leaf id label.parsed).forest) after (nodes ++ [id]) other
      result) :
    Takes setting root target reach (fuel + 1) taken (.leaf id label after) nodes run result := by
  cases ht with
  | @ended leaves rest last next hspans hinside hlong hd hnext hlast =>
      have hfinish : label.symbol ≠ .finish := by
        intro h
        simp [SyntaxTable.endsSpan, h] at hends
      rw [Forest.append_assoc] at hd
      rw [List.append_assoc]
      exact @Takes.ended setting root target reach (fuel + 1) taken _ nodes run ((id, label.parsed) :: leaves) rest last
        next (.take hfinish hspans) (List.forall_mem_cons.mpr ⟨hends, hinside⟩)
        (fun hlt => hlong (Nat.lt_of_succ_lt_succ hlt)) hd hnext (hsteady.trans hlast)
  | endless h => exact .endless (List.forall_mem_cons.mpr ⟨hends, h⟩)

-- In place of a subtree stands what is below it.
theorem Takes.node {symbol : Symbol} {changed : Bool} {below : Forest} (hsteady : Steady run other)
    (ht : Takes setting root target reach fuel taken (below ++ after) nodes other result) :
    Takes setting root target reach (fuel + 1) taken (.node id symbol changed below after) nodes run result := by
  cases ht with
  | ended hspans hinside hlong hd hnext hlast =>
      refine .ended (.descend hspans) hinside (fun hlt => hlong ?_) hd hnext (hsteady.trans hlast)
      rw [Forest.ids_append]
      exact Nat.lt_of_succ_lt_succ hlt
  | endless h =>
      rw [Forest.leaves_append] at h
      exact .endless h

-- A wildcard takes leaves as it meets them.
theorem takes_spanFrom (hd : run.store.Divides root taken ahead) (hid : ahead.roots.head? = some id) :
    Takes setting root target reach fuel taken ahead nodes run
      (setting.spanFrom target reach fuel nodes run id) := by
  induction fuel generalizing nodes run id taken ahead with
  | zero => exact .nothing hd hid fun h => absurd h (Nat.not_lt_zero _)
  | succ fuel ih =>
      induction ahead using Forest.spine_induction with
      | nil => cases hid
      | before tree after _ =>
          obtain rfl : tree.id = id := by simpa using hid
          have hh := hd.holds
          rw [Setting.spanFrom]
          cases tree with
          | leaf id label =>
              have hleaf : (run.node (Tree.leaf id label).id).isLeaf = true := hh.isLeaf
              simp only [hleaf, Bool.not_true, Bool.false_eq_true, if_false, endsSpan_of_holds hh, Tree.label]
              cases hends : setting.table.endsSpan target reach label with
              | true => exact .nothing hd hid fun _ => ⟨id, label, after, rfl, hends⟩
              | false =>
                  have hu := (unflags_clearChanged id run).trans (quiet_setState _ id target)
                  have hsteady : Steady run ((run.clearChanged id).setState id target) :=
                    (steady_clearChanged id run).trans ⟨Store.size_setState target, rfl, rfl, rfl⟩
                  simp only [Tree.id, Bool.false_eq_true, if_false]
                  generalize (run.clearChanged id).setState id target = other at hu hsteady ⊢
                  have htake : other.store.Divides root (taken ++ (Tree.leaf id label.parsed).forest) after :=
                    hd.take hu.size hu.relabels.view_ne (hu.holds hh) rfl
                  rw [show id = (Tree.leaf id label).id from rfl,
                    @next_of_divides setting root taken after run other (.leaf id label) id hd hu.relabels]
                  cases hafter : after.roots.head? with
                  | none =>
                      obtain rfl := Forest.eq_nil_of_head?_roots hafter
                      exact .endless (List.forall_mem_cons.mpr ⟨hends, List.forall_mem_nil _⟩)
                  | some first => exact (ih htake hafter).leaf hends hsteady
          | node id symbol changed below =>
              have hleaf : (run.node id).isLeaf = false := hh.not_isLeaf
              simp only [Tree.id, hleaf, Bool.not_false, if_true]
              have hbroken := @breakDownLeft_spec setting root taken after run (run.clearChanged id) id symbol changed
                below hd (unflags_clearChanged id run).relabels
              cases hleft : setting.breakDownLeft (run.clearChanged id) id with
              | error fault =>
                  rw [hleft] at hbroken
                  obtain ⟨rfl, rfl⟩ := hbroken
                  exact .endless (List.forall_mem_nil _)
              | ok broken =>
                  obtain ⟨broken, first⟩ := broken
                  rw [hleft] at hbroken
                  obtain ⟨⟨metrics, rfl⟩, hdown, hfirst⟩ := hbroken
                  have hsteady : Steady run { run.clearChanged id with metrics := metrics } :=
                    ⟨Run.size_clearChanged, Run.stack_clearChanged, Run.validating_clearChanged,
                      Run.brokeDown_clearChanged⟩
                  have htakes := @ih taken (below ++ after) { run.clearChanged id with metrics := metrics } first nodes
                    hdown hfirst
                  exact htakes.node hsteady

end

end Walk

-- Whether a run stands where a scene does.
structure Shows (root : Nat) (before : Forest) (run : Run) (scene : Scene) : Prop where
  stack : run.stack = scene.pieces.map Piece.frame
  size : run.store.size = scene.size
  validating : run.validating = scene.validating
  brokeDown : run.brokeDown = scene.brokeDown
  divides : run.store.Divides root (Piece.contents before scene.pieces) scene.ahead

-- What a step of a run may lead to, where a scene shows what it may do.
inductive Answers (setting : Setting) (root : Nat) (before : Forest) (scene : Scene) (id : Nat) :
    Progress Step → Prop where
  | continue {run : Run} {other : Scene} {next : Nat} :
      Moves setting scene other → Shows root before run other →
      other.ahead.roots.head? = some next → Answers setting root before scene id (.ok (.continue run next))
  | accept {run : Run} :
      Accepts setting scene → Shows root before run scene →
      Answers setting root before scene id (.ok (.accept (setting.accept run)))
  | reject {run : Run} :
      Rejects setting scene → run.brokeDown = (scene.brokeDown || scene.validating) →
      Answers setting root before scene id (.ok (.reject run id))
  | fault {run : Run} {fault : Fault} :
      Fails setting scene → Answers setting root before scene id (.error (run, fault))

section

variable {setting : Setting} {root : Nat} {before : Forest} {scene : Scene} {run : Run} {id next : Nat}

theorem Answers.continues (ha : Answers setting root before scene id (.ok (.continue run next))) :
    ∃ other, Moves setting scene other ∧ Shows root before run other ∧ other.ahead.roots.head? = some next := by
  cases ha with
  | «continue» hm hs hnext => exact ⟨_, hm, hs, hnext⟩

theorem Answers.accepts (ha : Answers setting root before scene id (.ok (.accept run))) : Accepts setting scene := by
  cases ha with
  | accept h _ => exact h

end

namespace Shows

variable {setting : Setting} {root : Nat} {before after : Forest} {run other : Run} {scene : Scene}
  {tree : Tree} {id : Nat} {label : Label}

theorem action? (hs : Shows root before run scene) (symbol : Symbol) :
    setting.action? run symbol = setting.lookup? scene.pieces symbol := by
  rw [Setting.action?, hs.stack, Piece.state_frames, Setting.lookup?]

theorem count (hs : Shows root before run scene) (change : Metrics → Metrics) :
    Shows root before (run.count change) scene :=
  ⟨hs.stack, hs.size, hs.validating, hs.brokeDown, hs.divides⟩

theorem holds (hs : Shows root before run scene) (ha : scene.ahead = tree.before after) :
    run.store.Holds tree := by
  have hd := hs.divides
  rw [ha] at hd
  exact hd.holds

-- A tree is taken onto the stack, with a change of its root.
theorem push {changed : Tree} {piece : Piece} (hs : Shows root before run scene)
    (ha : scene.ahead = tree.before after) (hpiece : piece.forest = changed.forest)
    (hstack : other.stack = piece.frame :: run.stack) (hr : Relabels tree.id run.store other.store)
    (hh : other.store.Holds changed) (hids : changed.forest.ids = tree.forest.ids) :
    Shows root before other
      ⟨piece :: scene.pieces, after, scene.size, other.validating, other.brokeDown⟩ := by
  refine ⟨?_, hr.size.trans hs.size, rfl, rfl, ?_⟩
  · rw [hstack, hs.stack]
    rfl
  · have hd := hs.divides
    rw [ha] at hd
    rw [Piece.contents, hpiece]
    exact hd.take hr.size hr.view_ne hh hids

-- What takes the first tree goes on behind it, unless it is the last one.
theorem next_push {changed : Tree} {piece : Piece} (hs : Shows root before run scene)
    (ha : scene.ahead = tree.before after) (hpiece : piece.forest = changed.forest)
    (hstack : other.stack = piece.frame :: run.stack) (hr : Relabels tree.id run.store other.store)
    (hh : other.store.Holds changed) (hids : changed.forest.ids = tree.forest.ids) :
    match setting.next other tree.id with
    | .ok next => after.roots.head? = some next ∧ Shows root before other
        ⟨piece :: scene.pieces, after, scene.size, other.validating, other.brokeDown⟩
    | .error result => after = .nil ∧ result = (other, .malformedRoot setting.document.root) := by
  have hshows := hs.push ha hpiece hstack hr hh hids
  have hd := hs.divides
  rw [ha] at hd
  rw [next_of_divides hd hr]
  induction after using Forest.spine_induction with
  | nil => exact ⟨rfl, rfl⟩
  | before next behind _ =>
      rw [Tree.roots_before]
      exact ⟨rfl, hshows⟩

theorem answers_push {changed : Tree} {piece : Piece} (hs : Shows root before run scene)
    (ha : scene.ahead = tree.before after) (hpiece : piece.forest = changed.forest)
    (hstack : other.stack = piece.frame :: run.stack) (hr : Relabels tree.id run.store other.store)
    (hh : other.store.Holds changed) (hids : changed.forest.ids = tree.forest.ids)
    (hmoves : after ≠ .nil → Moves setting scene
      ⟨piece :: scene.pieces, after, scene.size, other.validating, other.brokeDown⟩)
    (hfails : after = .nil → Fails setting scene) :
    Answers setting root before scene tree.id
      ((setting.next other tree.id).map fun next => .continue other next) := by
  have hnext := @next_push setting root before after run other scene tree changed piece hs ha hpiece hstack hr hh
    hids
  cases hresult : setting.next other tree.id with
  | error result =>
      rw [hresult] at hnext
      exact .fault (hfails hnext.1)
  | ok next =>
      rw [hresult] at hnext
      refine .continue (hmoves ?_) hnext.2 hnext.1
      rintro rfl
      cases hnext.1

theorem answers_take {piece : Piece} (hs : Shows root before run scene)
    (ha : scene.ahead = .leaf id label after) (hpiece : piece.forest = (Tree.leaf id label.parsed).forest)
    (hstack : other.stack = piece.frame :: run.stack) (hu : Unflags id run.store other.store)
    (hmoves : after ≠ .nil → Moves setting scene
      ⟨piece :: scene.pieces, after, scene.size, other.validating, other.brokeDown⟩)
    (hfails : after = .nil → Fails setting scene) :
    Answers setting root before scene id
      ((setting.next other id).map fun next => .continue other next) :=
  @answers_push setting root before after run other scene (.leaf id label) (.leaf id label.parsed) piece hs ha
    hpiece hstack hu.relabels (hu.holds (@holds root before after run scene (.leaf id label) hs ha)) rfl hmoves hfails

theorem reduce (hs : Shows root before run scene) (production : Nat) (hg : setting.table.grammar.toRules.WellFormed) :
    match setting.reduce run production with
    | .ok other => ∃ after, setting.reduced? production scene = some after ∧ Shows root before other after ∧
        after.ahead = scene.ahead
    | .error _ => setting.reduced? production scene = none := by
  unfold Setting.reduce Setting.reduced?
  simp only [hs.stack, Piece.popSymbols_frames]
  cases hpop : Piece.pop .nil (setting.table.grammar.production production).right.length scene.pieces with
  | none => simp
  | some popped =>
      obtain ⟨children, below⟩ := popped
      cases hproduction : (setting.table.grammar.production production).left with
      | none => simp
      | some left =>
          simp only [Option.map_some, Piece.state_frames]
          cases hgoto : setting.table.goto? (Piece.top below) left with
          | none => simp
          | some next =>
              have hcontents := Piece.contents_of_pop before hpop
              rw [Forest.append_nil] at hcontents
              have hd := hs.divides
              rw [hcontents] at hd
              have hover := hd.gather (hg.left_spec hproduction).2
              rw [hs.size] at hover
              simp only [Option.map_some]
              refine ⟨_, rfl, ⟨?_, ?_, hs.validating, hs.brokeDown, hover.congr ?_ fun id => ?_⟩, rfl⟩
              · simp [Run.count, Piece.frame, Tree.id, hs.size]
              · simp only [Run.count, Store.allocateNode_snd]
                split
                · simp [hs.size]
                · simp [hs.size]
              · simp only [Run.count, Store.allocateNode_snd]
                split
                · simp
                · simp
              · simp only [Run.count, Store.allocateNode_snd]
                split
                · simp
                · simp

theorem answers_reduce (hs : Shows root before run scene) {production : Nat}
    (hid : scene.ahead.roots.head? = some id) (hg : setting.table.grammar.toRules.WellFormed)
    (hmoves : ∀ other, setting.reduced? production scene = some other → Moves setting scene other)
    (hfails : setting.reduced? production scene = none → Fails setting scene) :
    Answers setting root before scene id
      ((setting.reduce run production).map fun other => .continue other id) := by
  have hreduce := hs.reduce production hg
  cases hr : setting.reduce run production with
  | error fault =>
      rw [hr] at hreduce
      exact .fault (hfails hreduce)
  | ok other =>
      rw [hr] at hreduce
      obtain ⟨after, hafter, hshows, hahead⟩ := hreduce
      exact .continue (hmoves after hafter) hshows (hahead ▸ hid)

-- A wildcard takes all leaves before the first one to end it, and goes on there.
theorem takeSpan {target : Nat} {reach : Reach} (hs : Shows root before run scene)
    (hid : scene.ahead.roots.head? = some id) :
    match setting.takeSpan run id target reach with
    | .ok (taken, next) => ∃ leaves label after, Spans scene.ahead leaves (.leaf next label after) ∧
        (∀ entry ∈ leaves, setting.table.endsSpan target reach entry.2 = false) ∧
        setting.table.endsSpan target reach label = true ∧
        Shows root before taken
          { scene with pieces := .span leaves target :: scene.pieces, ahead := .leaf next label after }
    | .error _ => ∀ entry ∈ scene.ahead.leaves, setting.table.endsSpan target reach entry.2 = false := by
  have htakes := @takes_spanFrom setting root _ scene.ahead run target (run.store.size + 1) id reach [] hs.divides hid
  unfold Setting.takeSpan
  generalize setting.spanFrom target reach (run.store.size + 1) [] run id = result at htakes
  cases htakes with
  | endless h => exact h
  | @ended leaves rest last next hspans hinside hlong hd hnext hsteady =>
      have hlength := Store.length_le_size hs.divides.faces.nodup hs.divides.faces.lt_size
      rw [List.length_append] at hlength
      obtain ⟨first, label, after, rfl, hends⟩ := hlong (by omega)
      obtain rfl := Option.some_inj.mp hnext
      refine ⟨leaves, label, after, hspans, hinside, hends, ?_, hsteady.size.trans hs.size,
        hsteady.validating.trans hs.validating, hsteady.brokeDown.trans hs.brokeDown, hd⟩
      simp [Run.count, hsteady.stack, hs.stack, Piece.frame]

theorem answers_tryWildcards (hs : Shows root before run scene)
    (ha : scene.ahead = .leaf id label after) (hsilent : setting.Silent scene.pieces label)
    (hvalidating : scene.validating = false) (hpasses : setting.passes label = false)
    (hg : setting.table.grammar.toRules.WellFormed) (reaches : List Reach) :
    Answers setting root before scene id (setting.tryWildcards run id reaches) := by
  induction reaches with
  | nil =>
      refine .reject ⟨id, label, after, ha, hsilent, Or.inr hpasses⟩ ?_
      rw [hs.brokeDown, hvalidating, Bool.or_false]
  | cons reach rest ih =>
      have hid : scene.ahead.roots.head? = some id := by
        rw [ha]
        rfl
      unfold Setting.tryWildcards
      rw [hs.action?]
      split
      · rename_i target haction
        have htaken := @takeSpan setting root before run scene id target reach hs hid
        cases hspan : setting.takeSpan run id target reach with
        | error result =>
            rw [hspan] at htaken
            exact .fault (.span haction htaken)
        | ok taken =>
            rw [hspan] at htaken
            obtain ⟨leaves, label, after, hspans, -, -, hshows⟩ := htaken
            exact .continue (.span hvalidating haction hspans) hshows rfl
      · rename_i production haction
        exact hs.answers_reduce hid hg
          (fun other h => .reduceSpan haction h) fun h => .reduceSpan haction h
      · exact ih

theorem answers_withoutAction (hs : Shows root before run scene)
    (ha : scene.ahead = .leaf id label after) (hsilent : setting.Silent scene.pieces label)
    (hg : setting.table.grammar.toRules.WellFormed) :
    Answers setting root before scene id (setting.withoutAction run id) := by
  have hh : run.store.Holds (.leaf id label) := @holds root before after run scene (.leaf id label) hs ha
  unfold Setting.withoutAction
  rw [hs.validating]
  cases hvalidating : scene.validating with
  | true =>
      rw [if_pos rfl]
      dsimp only
      generalize hbroken : ({ run with validating := false, brokeDown := true } : Run).count
        (fun counts => { counts with rightBreakdowns := counts.rightBreakdowns + 1 }) = broken
      have hstack : broken.stack = scene.pieces.map Piece.frame := hbroken ▸ hs.stack
      have hkept : broken.store.Kept (Piece.contents before scene.pieces) := hbroken ▸ hs.divides.kept
      have hstore : broken.store = run.store := hbroken ▸ rfl
      have hflags : broken.validating = false ∧ broken.brokeDown = true := hbroken ▸ ⟨rfl, rfl⟩
      cases hdown : setting.breakDownRight broken with
      | mk after shifted =>
          obtain ⟨hq, hshifted⟩ := breakDownRightFrom_spec hstack hkept hdown
          cases shifted with
          | true =>
              obtain ⟨others, hothers, hafter⟩ := hshifted rfl
              obtain ⟨hkept, hsub⟩ := hothers.kept (hq.kept hkept)
              have hd : after.store.Divides root (Piece.contents before scene.pieces) scene.ahead :=
                hs.divides.congr (hstore ▸ hq.size) (hstore ▸ hq.view)
              refine .continue (.breakDown ha hsilent hvalidating hothers)
                ⟨hafter, ?_, hq.validating.trans hflags.1, hq.brokeDown.trans hflags.2,
                  hd.regroup hkept hsub⟩ ?_
              · exact (hstore ▸ hq.size).trans hs.size
              · simp [ha, Forest.roots]
          | false =>
              refine .reject ⟨id, label, _, ha, hsilent, Or.inl hvalidating⟩ ?_
              rw [hq.brokeDown, hflags.2, hvalidating, Bool.or_true]
  | false =>
      rw [if_neg Bool.false_ne_true, show id = (Tree.leaf id label).id from rfl, passes_of_holds hh]
      cases hpasses : setting.passes label with
      | true =>
          rw [if_pos (by simpa [Tree.label] using hpasses)]
          have hu := (unflags_clearChanged id run).trans (quiet_pushPassed _ id)
          have hstack : ((run.clearChanged id).pushPassed id).stack =
              Frame.passed id (Piece.top scene.pieces) :: run.stack := by
            rw [Run.pushPassed, Run.stack_clearChanged, hs.stack, Piece.state_frames]
          refine @answers_take setting root before after run _ scene id label
            (.passed (.leaf id label.parsed) (Piece.top scene.pieces)) hs ha rfl hstack hu (fun hne => ?_)
            fun h => ?_
          · simp only [Run.count, Run.pushPassed, Run.setState, Run.validating_clearChanged,
              Run.brokeDown_clearChanged, hs.validating, hs.brokeDown]
            exact .pass ha hne hsilent hvalidating hpasses
          · exact .pass (h ▸ ha) hpasses hsilent
      | false =>
          rw [if_neg (by simpa [Tree.label] using hpasses)]
          exact hs.answers_tryWildcards ha hsilent hvalidating hpasses hg _

theorem answers_stepTerminal (hs : Shows root before run scene)
    (ha : scene.ahead = .leaf id label after) (hg : setting.table.grammar.toRules.WellFormed) :
    Answers setting root before scene id (setting.stepTerminal run id) := by
  have hh : run.store.Holds (.leaf id label) := @holds root before after run scene (.leaf id label) hs ha
  have hkey : (run.node id).key = label.key := @Store.Holds.key run.store (.leaf id label) hh
  unfold Setting.stepTerminal
  rw [hkey, hs.action?]
  split
  · rename_i haction
    exact .accept ⟨id, label, after, ha, haction⟩ hs
  · rename_i next haction
    have hu := (unflags_clearChanged id run).trans (quiet_pushSymbol _ id next)
    have hstack : ((run.clearChanged id).pushSymbol id next).stack = Frame.symbol id next :: run.stack := by
      rw [Run.pushSymbol, Run.stack_clearChanged]
    refine @answers_take setting root before after run _ scene id label
      (.symbol (.leaf id label.parsed) next) hs ha rfl hstack hu (fun hne => ?_) fun h => ?_
    · simp only [Run.count, Run.pushSymbol, Run.setState, Run.brokeDown_clearChanged, hs.brokeDown]
      exact .shift ha hne haction
    · exact .shift (h ▸ ha) haction
  · rename_i production haction
    have hfirst : scene.ahead.leaves.head? = some (id, label) := by
      rw [ha]
      rfl
    exact hs.answers_reduce (by rw [ha]; rfl) hg
      (fun other h => .reduce hfirst haction h) fun h => .reduce hfirst haction h
  · rename_i target haction
    exact hs.answers_withoutAction ha (Or.inr ⟨target, haction⟩) hg
  · rename_i haction
    exact hs.answers_withoutAction ha (Or.inl haction) hg

-- Going down to the first child shows what is below the node in its place.
theorem down {symbol : Symbol} {changed : Bool} {below : Forest}
    (hs : Shows root before run scene) (ha : scene.ahead = .node id symbol changed below after)
    (hr : Relabels id run.store other.store) (hsteady : Steady run other) :
    match setting.breakDownLeft other id with
    | .ok (broken, next) => Shows root before broken { scene with ahead := below ++ after } ∧
        (below ++ after).roots.head? = some next
    | .error _ => below = .nil ∧ after = .nil := by
  have hd := hs.divides
  rw [ha] at hd
  have hbroken := @breakDownLeft_spec setting root _ after run other id symbol changed below hd hr
  cases hleft : setting.breakDownLeft other id with
  | error fault =>
      rw [hleft] at hbroken
      exact hbroken
  | ok broken =>
      obtain ⟨broken, next⟩ := broken
      rw [hleft] at hbroken
      obtain ⟨⟨metrics, rfl⟩, hd, hnext⟩ := hbroken
      exact ⟨⟨hsteady.stack.trans hs.stack, hsteady.size.trans hs.size, hsteady.validating.trans hs.validating,
        hsteady.brokeDown.trans hs.brokeDown, hd⟩, hnext⟩

theorem answers_stepNonterminal {symbol : Symbol} {changed : Bool} {below : Forest}
    (hs : Shows root before run scene) (ha : scene.ahead = .node id symbol changed below after)
    (hg : setting.table.grammar.toRules.WellFormed) :
    Answers setting root before scene id
      ((setting.stepNonterminal run id).map fun (run, next) => .continue run next) := by
  have hd := hs.divides
  rw [ha] at hd
  have hh : run.store.Holds (.node id symbol changed below) :=
    @holds root before after run scene (.node id symbol changed below) hs ha
  have hflag : (run.node id).changed = changed := congrArg Label.changed hh.1
  have hsymbol : (run.node id).symbol = symbol := congrArg Label.symbol hh.1
  -- going down to the first child, whether the flag is cleared or not
  have hdown : ∀ other : Run, Relabels id run.store other.store → Steady run other →
      Answers setting root before scene id
        ((setting.breakDownLeft other id).map fun (run, next) => .continue run next) := by
    intro other hr hsteady
    have hbroken := @down setting root before after run other scene id symbol changed below hs ha hr hsteady
    cases hleft : setting.breakDownLeft other id with
    | error fault =>
        rw [hleft] at hbroken
        exact .fault (.node (hbroken.2 ▸ ha))
    | ok broken =>
        rw [hleft] at hbroken
        exact .continue (.descend ha) hbroken.1 hbroken.2
  unfold Setting.stepNonterminal
  dsimp only
  rw [hs.action?, hflag, hsymbol]
  split
  · exact hdown _ (unflags_clearChanged id run).relabels (steady_clearChanged id run)
  · rename_i hkeep
    obtain ⟨hreparse, rfl⟩ : setting.reparse = false ∧ changed = false := by simpa using hkeep
    split
    · rename_i next haction
      generalize hother : ({ run.pushSymbol id next with validating := true } : Run).count
        (fun counts => { counts with optimisticShifts := counts.optimisticShifts + 1 }) = other
      have hq : other.store.size = run.store.size ∧ (∀ id, other.store.view id = run.store.view id) ∧
          other.validating = true ∧ other.brokeDown = run.brokeDown ∧
          other.stack = Frame.symbol id next :: run.stack := by
        have hq := quiet_pushSymbol run id next
        rw [← hother]
        exact ⟨hq.size, hq.view, rfl, rfl, rfl⟩
      have hpush := @answers_push setting root before after run other scene (.node id symbol false below)
        (.node id symbol false below) (.symbol (.node id symbol false below) next) hs ha rfl hq.2.2.2.2
        (.of_view hq.1 hq.2.1) (hh.of_view hq.2.1) rfl
        (fun _ => by rw [hq.2.2.1, hq.2.2.2.1, hs.brokeDown]; exact .reuse hreparse ha haction)
        fun h => .node (h ▸ ha)
      rw [show (Tree.node id symbol false below).id = id from rfl] at hpush
      cases hnext : setting.next other id with
      | error fault =>
          rw [hnext] at hpush
          exact hpush
      | ok after =>
          rw [hnext] at hpush
          exact hpush
    · split
      · rename_i production hbefore
        obtain ⟨first, hfirst, haction⟩ := reduceBefore_spec hd hbefore
        rw [hs.action?] at haction
        have hreduce := @answers_reduce setting root before run scene id hs production (by rw [ha]; rfl)
          hg (fun other h => .reduce (ha ▸ hfirst) haction h)
          fun h => .reduce (ha ▸ hfirst) haction h
        cases hr : setting.reduce run production with
        | error fault =>
            rw [hr] at hreduce
            exact hreduce
        | ok other =>
            rw [hr] at hreduce
            exact hreduce
      · exact hdown run (.of_view rfl fun _ => rfl) ⟨rfl, rfl, rfl, rfl⟩

-- Steps do what the scene allows.
theorem answers_step (hs : Shows root before run scene) (hid : scene.ahead.roots.head? = some id)
    (hg : setting.table.grammar.toRules.WellFormed) :
    Answers setting root before scene id (setting.step run id) := by
  unfold Setting.step
  cases ha : scene.ahead with
  | nil =>
      rw [ha] at hid
      cases hid
  | leaf first label after =>
      rw [ha] at hid
      obtain rfl := Option.some_inj.mp hid
      have hh : run.store.Holds (.leaf first label) := @holds root before after run scene (.leaf first label) hs ha
      rw [if_pos (by exact hh.isLeaf)]
      exact hs.answers_stepTerminal ha hg
  | node first symbol changed below after =>
      rw [ha] at hid
      obtain rfl := Option.some_inj.mp hid
      have hh := @holds root before after run scene (.node first symbol changed below) hs ha
      rw [if_neg (by exact ne_true_of_eq_false hh.not_isLeaf)]
      exact hs.answers_stepNonterminal ha hg

end Shows

end IncrementalLR
