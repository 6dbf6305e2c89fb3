import IncrementalLR.Proofs.Document.Standing
import IncrementalLR.Proofs.Parse.Paths
import IncrementalLR.Proofs.Parse.Reader
import IncrementalLR.Proofs.Parse.Tally

namespace IncrementalLR

namespace Piece

-- What a reader has on its stack for a tree.
def shelf (piece : Piece) : Shelf := ⟨piece.state, piece.frame.counts, piece.forest.snapshots⟩

variable {pieces : List Piece} {taken : Forest} {count : Nat}

theorem top_shelves : Shelf.top (pieces.map shelf) = top pieces := by
  cases pieces with
  | nil => rfl
  | cons piece below => rfl

theorem pop_shelves :
    Shelf.pop taken.snapshots count (pieces.map shelf) =
      (pop taken count pieces).map fun (children, below) => (children.snapshots, below.map shelf) := by
  induction pieces generalizing taken count with
  | nil =>
      cases count with
      | zero => rfl
      | succ count => rfl
  | cons piece below ih =>
      cases count with
      | zero => rfl
      | succ count =>
          rw [List.map_cons, Shelf.pop, pop, ← ih, Forest.snapshots_append]
          rfl

theorem copies_shelves : ((pieces.map shelf).reverse.flatMap Shelf.copies) = (contents .nil pieces).snapshots := by
  induction pieces with
  | nil => rfl
  | cons piece below ih =>
      rw [contents, Forest.snapshots_append, ← ih, List.map_cons, List.reverse_cons, List.flatMap_append]
      simp [shelf]

end Piece

-- A reader of the leaves that are still to come.
def Scene.reader (scene : Scene) : Reader := ⟨scene.pieces.map Piece.shelf, scene.ahead.tokens.map Prod.snd⟩

namespace Scene

-- Scenes of a parse that has shifted no tree whole, up to an end of input.
structure Unshifted (scene : Scene) (last : Nat × Label) : Prop where
  validating : scene.validating = false
  brokeDown : scene.brokeDown = false
  finish : last.2.symbol = .finish
  closes : Document.ClosesWith last scene

namespace Unshifted

variable {setting : Setting} {scene other : Scene} {last : Nat × Label} {after : Forest}

theorem moves (hf : scene.Unshifted last) (hm : Moves setting scene other) (hv : other.validating = false) :
    other.Unshifted last := by
  have hbroke : other.brokeDown = scene.brokeDown := by
    have hreduced : ∀ {production}, setting.reduced? production scene = some other →
        other.brokeDown = scene.brokeDown := by
      intro production h
      obtain ⟨children, below, left, next, -, -, -, rfl⟩ := reduced?_spec h
      rfl
    cases hm with
    | shift _ _ _ => rfl
    | reduce _ _ h => exact hreduced h
    | breakDown _ _ hscene _ => cases hf.validating.symm.trans hscene
    | pass _ _ _ _ _ => rfl
    | span _ _ _ => rfl
    | reduceSpan _ h => exact hreduced h
    | descend _ => rfl
    | reuse _ _ _ => cases hv
  exact ⟨hv, hbroke.trans hf.brokeDown, hf.finish, hf.closes.moves hf.finish hm⟩

-- There are leaves behind a tree, unless it is the last one.
theorem behind {tree : Tree} (hf : scene.Unshifted last) (ha : scene.ahead = tree.before after) :
    tree = .leaf last.1 last.2 ∧ after = .nil ∨ after.tokens ≠ [] := by
  obtain ⟨inner, hahead⟩ := hf.closes
  rcases Document.before_of_append_last (ha.symm.trans hahead) with ⟨-, htree, hafter⟩ | ⟨behind, -, rfl⟩
  · exact Or.inl ⟨htree, hafter⟩
  · rw [Forest.tokens_append]
    exact Or.inr (List.append_ne_nil_of_right_ne_nil _ (List.cons_ne_nil _ _))

end Unshifted

end Scene

namespace Setting

variable (setting : Setting)

def turn (scene : Scene) : Reader.Turn := scene.reader.turn setting.table setting.passThrough

-- What a step is to a reader of the leaves: nothing at all, or what the reader does next.
inductive Follows (scene other : Scene) : Prop where
  | descend : other.reader = scene.reader → other.size = scene.size → Follows scene other
  | take : setting.turn scene = .take other.reader → other.size = scene.size → Follows scene other
  | reduce : setting.turn scene = .reduce other.reader → other.size = scene.size + 1 → Follows scene other

-- What a step may lead to that shifts no tree whole.
inductive Forces (root : Nat) (before : Forest) (scene : Scene) (id : Nat) : Progress Step → Prop where
  | continue {run : Run} {other : Scene} {next : Nat} :
      Moves setting scene other → other.validating = false → setting.Follows scene other → Shows root before run other →
      other.ahead.roots.head? = some next → Forces root before scene id (.ok (.continue run next))
  | accept {run : Run} :
      setting.turn scene = .accept → Accepts setting scene → Shows root before run scene →
      Forces root before scene id (.ok (.accept (setting.accept run)))
  | reject {run : Run} {label : Label} {after : Forest} :
      setting.turn scene = .reject → scene.ahead = .leaf id label after → run.brokeDown = false →
      Forces root before scene id (.ok (.reject run id))
  | fault {run : Run} {fault : Fault} :
      setting.turn scene = .fail → (fault.OffStack → fault = .malformedRoot setting.document.root) →
      Forces root before scene id (.error (run, fault))

variable {setting} {scene other : Scene} {last : Nat × Label} {production id state target : Nat} {label : Label}
  {after rest : Forest} {counts : Bool} {reach : Reach}

theorem turn_of_leaf (ha : scene.ahead = .leaf id label after) :
    setting.turn scene =
      match setting.lookup? scene.pieces label.key with
      | some .accept => .accept
      | some (.shift next) => scene.reader.take label.parsed next true (after.tokens.map Prod.snd)
      | some (.reduce production) => scene.reader.reduce setting.table production
      | some (.goto _) | none =>
          if setting.passes label then
            scene.reader.take label.parsed (Piece.top scene.pieces) false (after.tokens.map Prod.snd)
          else scene.reader.tryWildcards setting.table [.multiline, .singleLine] := by
  have hlabels : scene.reader.labels = label.parsed :: after.tokens.map Prod.snd := by
    rw [Scene.reader, ha]
    rfl
  have htop : Shelf.top scene.reader.shelves = Piece.top scene.pieces := Piece.top_shelves
  rw [turn, Reader.turn, hlabels]
  dsimp only
  rw [htop]
  rfl

theorem turn_of_reduce {first : Nat × Label} (hfirst : scene.ahead.leaves.head? = some first)
    (haction : setting.lookup? scene.pieces first.2.key = some (.reduce production)) :
    setting.turn scene = scene.reader.reduce setting.table production := by
  obtain ⟨behind, hleaves⟩ := List.head?_eq_some_iff.mp hfirst
  have hlabels : scene.reader.labels = first.2.parsed :: behind.map fun entry => entry.2.parsed := by
    rw [Scene.reader, Forest.tokens, hleaves]
    simp
  have htop : Shelf.top scene.reader.shelves = Piece.top scene.pieces := Piece.top_shelves
  have hlookup : setting.table.lookup? (Piece.top scene.pieces) first.2.parsed.key = some (.reduce production) := haction
  rw [turn, Reader.turn, hlabels]
  dsimp only
  rw [htop, hlookup]

theorem reader_take (ha : after.tokens ≠ []) :
    scene.reader.take label.parsed state counts (after.tokens.map Prod.snd) =
      .take ⟨⟨state, counts, [label.parsed.copy]⟩ :: scene.pieces.map Piece.shelf, after.tokens.map Prod.snd⟩ := by
  rw [Reader.take, if_neg (by simpa using ha)]
  rfl

theorem reader_reduced? :
    scene.reader.reduced? setting.table production = (setting.reduced? production scene).map Scene.reader := by
  unfold Reader.reduced? Setting.reduced?
  have hpop := @Piece.pop_shelves scene.pieces .nil (setting.table.grammar.production production).right.length
  change Shelf.pop [] _ scene.reader.shelves = _ at hpop
  dsimp only
  rw [hpop]
  cases Piece.pop .nil (setting.table.grammar.production production).right.length scene.pieces with
  | none => rfl
  | some popped =>
      obtain ⟨children, below⟩ := popped
      cases (setting.table.grammar.production production).left with
      | none => rfl
      | some left =>
          simp only [Option.map_some, Option.map_map, Piece.top_shelves]
          rfl

theorem reader_reduce :
    scene.reader.reduce setting.table production =
      match setting.reduced? production scene with
      | some other => .reduce other.reader
      | none => .fail := by
  rw [Reader.reduce, reader_reduced?]
  cases setting.reduced? production scene with
  | none => rfl
  | some other => rfl

-- Of the leaves to come a reader takes those into a wildcard that stand before the first
-- one to end it.
theorem reader_span {leaves : List (Nat × Label)} (hs : Spans scene.ahead leaves (.leaf id label after))
    (hinside : ∀ entry ∈ leaves, setting.table.endsSpan target reach entry.2 = false)
    (hends : setting.table.endsSpan target reach label = true) :
    scene.reader.span setting.table target reach =
      Scene.reader { scene with pieces := .span leaves target :: scene.pieces, ahead := .leaf id label after } := by
  have hlabels : scene.reader.labels =
      leaves.map (fun entry => entry.2.parsed) ++ label.parsed :: after.tokens.map Prod.snd := by
    rw [Scene.reader, ← hs.tokens, Forest.tokens_append, List.map_append, Forest.tokens, Forest.leaves_ofLeaves,
      List.map_map]
    rfl
  have hinside' : ∀ inner ∈ leaves.map (fun entry => entry.2.parsed),
      (!setting.table.endsSpan target reach inner) = true := by
    intro inner h
    obtain ⟨entry, hentry, rfl⟩ := List.mem_map.mp h
    exact congrArg not (hinside entry hentry)
  have hends' : setting.table.endsSpan target reach label.parsed = true := hends
  rw [Reader.span, hlabels, List.takeWhile_append_of_pos hinside', List.dropWhile_append_of_pos hinside']
  simp only [List.takeWhile_cons, List.dropWhile_cons, hends', Bool.not_true, Bool.false_eq_true, if_false,
    List.append_nil, List.map_map, Scene.reader, List.map_cons, Piece.shelf, Piece.forest, Forest.snapshots_ofLeaves]
  rfl

theorem not_offStack_of_reduce {run last : Run} {fault : Fault}
    (h : setting.reduce run production = .error (last, fault)) : ¬fault.OffStack := by
  unfold Setting.reduce at h
  dsimp only at h
  split at h
  · split at h
    · cases h
      exact id
    · cases h
  · cases h
    exact id

end Setting

namespace Shows

variable {setting : Setting} {root id production : Nat} {before after : Forest} {run other : Run} {scene : Scene}
  {last : Nat × Label} {label : Label}

-- The first leaf is taken onto the stack.
theorem forces_take {piece : Piece} (hs : Shows root before run scene) (hf : scene.Unshifted last)
    (ha : scene.ahead = .leaf id label after) (hpiece : piece.forest = (Tree.leaf id label.parsed).forest)
    (hstack : other.stack = piece.frame :: run.stack) (hu : Unflags id run.store other.store)
    (hturn : setting.turn scene =
      scene.reader.take label.parsed piece.state piece.frame.counts (after.tokens.map Prod.snd))
    (hv : other.validating = false) (hmoves : after ≠ .nil → Moves setting scene
      ⟨piece :: scene.pieces, after, scene.size, other.validating, other.brokeDown⟩) :
    setting.Forces root before scene id ((setting.next other id).map fun next => .continue other next) := by
  have hnext := @next_push setting root before after run other scene (.leaf id label) (.leaf id label.parsed) piece hs ha
    hpiece hstack hu.relabels (hu.holds (@holds root before after run scene (.leaf id label) hs ha)) rfl
  simp only [Tree.id] at hnext
  cases hr : setting.next other id with
  | error result =>
      rw [hr] at hnext
      obtain ⟨rfl, rfl⟩ := hnext
      exact .fault (hturn.trans (if_pos rfl)) fun _ => rfl
  | ok next =>
      rw [hr] at hnext
      have hne : after ≠ .nil := by
        rintro rfl
        cases hnext.1
      have htokens : after.tokens ≠ [] :=
        ((@Scene.Unshifted.behind scene last after (.leaf id label) hf ha).resolve_left fun h => hne h.2)
      have htaken : setting.turn scene =
          .take ⟨piece.shelf :: scene.pieces.map Piece.shelf, after.tokens.map Prod.snd⟩ := by
        rw [hturn, Setting.reader_take htokens, Piece.shelf, hpiece]
        rfl
      exact .continue (hmoves hne) hv (.take htaken rfl) hnext.2 hnext.1

theorem forces_reduce (hs : Shows root before run scene) (hf : scene.Unshifted last)
    (hid : scene.ahead.roots.head? = some id) (hg : setting.table.grammar.toRules.WellFormed)
    (hturn : setting.turn scene = scene.reader.reduce setting.table production)
    (hmoves : ∀ other, setting.reduced? production scene = some other → Moves setting scene other) :
    setting.Forces root before scene id ((setting.reduce run production).map fun other => .continue other id) := by
  have hreduce := hs.reduce production hg
  rw [Setting.reader_reduce] at hturn
  cases hr : setting.reduce run production with
  | error result =>
      rw [hr] at hreduce
      rw [hreduce] at hturn
      exact .fault hturn fun hoff => absurd hoff (Setting.not_offStack_of_reduce hr)
  | ok other =>
      rw [hr] at hreduce
      obtain ⟨after, hafter, hshows, hahead⟩ := hreduce
      rw [hafter] at hturn
      have hkept : after.validating = scene.validating ∧ after.size = scene.size + 1 := by
        obtain ⟨children, below, left, next, -, -, -, rfl⟩ := reduced?_spec hafter
        exact ⟨rfl, rfl⟩
      exact .continue (hmoves after hafter) (hkept.1.trans hf.validating) (.reduce hturn hkept.2) hshows (hahead ▸ hid)

theorem forces_tryWildcards (hs : Shows root before run scene) (hf : scene.Unshifted last)
    (ha : scene.ahead = .leaf id label after) (hg : setting.table.grammar.toRules.WellFormed) (reaches : List Reach)
    (hturn : setting.turn scene = scene.reader.tryWildcards setting.table reaches) :
    setting.Forces root before scene id (setting.tryWildcards run id reaches) := by
  have hid : scene.ahead.roots.head? = some id := by
    rw [ha]
    rfl
  induction reaches with
  | nil => exact .reject hturn ha (hs.brokeDown.trans hf.brokeDown)
  | cons reach rest ih =>
      have hlookup : setting.table.lookup? (Shelf.top scene.reader.shelves) (.wildcard reach) =
          setting.lookup? scene.pieces (.wildcard reach) := by
        rw [Setting.lookup?, ← Piece.top_shelves]
        rfl
      rw [Reader.tryWildcards, hlookup] at hturn
      unfold Setting.tryWildcards
      rw [hs.action?]
      split
      · rename_i target haction
        rw [haction] at hturn
        have htaken := @takeSpan setting root before run scene id target reach hs hid
        cases hspan : setting.takeSpan run id target reach with
        | error result =>
            rw [hspan] at htaken
            obtain ⟨inner, hinner⟩ := hf.closes
            have hlast : setting.table.endsSpan target reach last.2 = false := by
              refine htaken last ?_
              rw [hinner, Forest.leaves_append]
              exact List.mem_append_right _ List.mem_cons_self
            rw [SyntaxTable.endsSpan, hf.finish] at hlast
            cases hlast
        | ok taken =>
            rw [hspan] at htaken
            obtain ⟨leaves, label, after, hspans, hinside, hends, hshows⟩ := htaken
            have htake := hturn.trans (congrArg Reader.Turn.take (Setting.reader_span hspans hinside hends))
            exact .continue (.span hf.validating haction hspans) hf.validating (.take htake rfl) hshows rfl
      · rename_i production haction
        rw [haction] at hturn
        exact hs.forces_reduce hf hid hg hturn fun other h => .reduceSpan haction h
      · rename_i hshift hreduce
        refine ih (hturn.trans ?_)
        split
        · rename_i target haction
          exact absurd haction (hshift target)
        · rename_i production haction
          exact absurd haction (hreduce production)
        · rfl

theorem forces_withoutAction (hs : Shows root before run scene) (hf : scene.Unshifted last)
    (ha : scene.ahead = .leaf id label after) (hsilent : setting.Silent scene.pieces label)
    (hg : setting.table.grammar.toRules.WellFormed)
    (hturn : setting.turn scene =
      if setting.passes label then
        scene.reader.take label.parsed (Piece.top scene.pieces) false (after.tokens.map Prod.snd)
      else scene.reader.tryWildcards setting.table [.multiline, .singleLine]) :
    setting.Forces root before scene id (setting.withoutAction run id) := by
  have hpassing : setting.isPassThrough (run.node id) = setting.passes label :=
    passes_of_holds (@holds root before after run scene (.leaf id label) hs ha)
  unfold Setting.withoutAction
  rw [hs.validating, hf.validating, if_neg Bool.false_ne_true, hpassing]
  cases hpasses : setting.passes label with
  | false =>
      rw [hpasses, if_neg Bool.false_ne_true] at hturn
      exact hs.forces_tryWildcards hf ha hg _ hturn
  | true =>
      rw [hpasses, if_pos rfl] at hturn
      have hu := (unflags_clearChanged id run).trans (quiet_pushPassed _ id)
      have hstack : ((run.clearChanged id).pushPassed id).stack =
          Frame.passed id (Piece.top scene.pieces) :: run.stack := by
        rw [Run.pushPassed, Run.stack_clearChanged, hs.stack, Piece.state_frames]
      refine @forces_take setting root id before after run _ scene last label
        (.passed (.leaf id label.parsed) (Piece.top scene.pieces)) hs hf ha rfl hstack hu hturn ?_ fun hne => ?_
      · simp [Run.count, Run.pushPassed, Run.setState, hs.validating, hf.validating]
      simp only [Run.count, Run.pushPassed, Run.setState, Run.validating_clearChanged, Run.brokeDown_clearChanged,
        hs.validating, hs.brokeDown]
      exact .pass ha hne hsilent hf.validating hpasses

theorem forces_stepTerminal (hs : Shows root before run scene) (hf : scene.Unshifted last)
    (ha : scene.ahead = .leaf id label after) (hg : setting.table.grammar.toRules.WellFormed) :
    setting.Forces root before scene id (setting.stepTerminal run id) := by
  have hkey : (run.node id).key = label.key := (@holds root before after run scene (.leaf id label) hs ha).key
  have hturn := @Setting.turn_of_leaf setting scene id label after ha
  unfold Setting.stepTerminal
  rw [hkey, hs.action?]
  split
  · rename_i haction
    rw [haction] at hturn
    exact .accept hturn ⟨id, label, after, ha, haction⟩ hs
  · rename_i next haction
    rw [haction] at hturn
    have hu := (unflags_clearChanged id run).trans (quiet_pushSymbol _ id next)
    have hstack : ((run.clearChanged id).pushSymbol id next).stack = Frame.symbol id next :: run.stack := by
      rw [Run.pushSymbol, Run.stack_clearChanged]
    refine @forces_take setting root id before after run _ scene last label
      (.symbol (.leaf id label.parsed) next) hs hf ha rfl hstack hu hturn rfl fun hne => ?_
    simp only [Run.count, Run.pushSymbol, Run.setState, Run.brokeDown_clearChanged, hs.brokeDown]
    exact .shift ha hne haction
  · rename_i production haction
    rw [haction] at hturn
    have hfirst : scene.ahead.leaves.head? = some (id, label) := by
      rw [ha]
      rfl
    exact hs.forces_reduce hf (by rw [ha]; rfl) hg hturn fun other h => .reduce hfirst haction h
  · rename_i target haction
    rw [haction] at hturn
    exact hs.forces_withoutAction hf ha (Or.inr ⟨target, haction⟩) hg hturn
  · rename_i haction
    rw [haction] at hturn
    exact hs.forces_withoutAction hf ha (Or.inl haction) hg hturn

-- A tree that is not shifted whole is taken apart from the left, so that a parse meets all
-- leaves one by one, unless its first leaf asks for a reduction before it.
theorem forces_stepNonterminal {symbol : Symbol} {changed : Bool} {below : Forest} (hs : Shows root before run scene)
    (hf : scene.Unshifted last) (ha : scene.ahead = .node id symbol changed below after)
    (hno : ¬setting.Reuses run id) (hg : setting.table.grammar.toRules.WellFormed) :
    setting.Forces root before scene id
      ((setting.stepNonterminal run id).map fun (run, next) => .continue run next) := by
  have hh := @holds root before after run scene (.node id symbol changed below) hs ha
  have hdown : ∀ other : Run, Relabels id run.store other.store → Steady run other →
      setting.Forces root before scene id
        ((setting.breakDownLeft other id).map fun (run, next) => .continue run next) := by
    intro other hr hsteady
    have hdown := @down setting root before after run other scene id symbol changed below hs ha hr hsteady
    cases hleft : setting.breakDownLeft other id with
    | error fault =>
        rw [hleft] at hdown
        obtain ⟨-, rfl⟩ := hdown
        rcases @Scene.Unshifted.behind scene last .nil (.node id symbol changed below) hf ha with ⟨h, -⟩ | h
        · cases h
        · exact absurd rfl h
    | ok broken =>
        rw [hleft] at hdown
        refine .continue (.descend ha) hf.validating (.descend ?_ rfl) hdown.1 hdown.2
        rw [Scene.reader, Scene.reader, ha, Forest.tokens, Forest.tokens, Forest.leaves_append]
        rfl
  unfold Setting.stepNonterminal
  dsimp only
  split
  · exact hdown _ (unflags_clearChanged id run).relabels (steady_clearChanged id run)
  · rename_i hkeep
    obtain ⟨hreparse, hchanged⟩ : setting.reparse = false ∧ (run.node id).changed = false := by simpa using hkeep
    split
    · rename_i next haction
      exact absurd ⟨hreparse, hh.not_isLeaf, hchanged, next, haction⟩ hno
    · split
      · rename_i production hbefore
        have hd := hs.divides
        rw [ha] at hd
        obtain ⟨first, hfirst, haction⟩ := reduceBefore_spec hd hbefore
        rw [hs.action?] at haction
        rw [← ha] at hfirst
        have hreduce := hs.forces_reduce hf (by rw [ha]; rfl) hg (Setting.turn_of_reduce hfirst haction)
          fun other h => .reduce hfirst haction h
        cases hr : setting.reduce run production with
        | error fault =>
            rw [hr] at hreduce
            exact hreduce
        | ok other =>
            rw [hr] at hreduce
            exact hreduce
      · exact hdown run (.of_view rfl fun _ => rfl) ⟨rfl, rfl, rfl, rfl⟩

-- A step that shifts no tree whole does what a reader of the leaves does next, or nothing
-- that a reader sees.
theorem forces_step (hs : Shows root before run scene) (hid : scene.ahead.roots.head? = some id)
    (hf : scene.Unshifted last) (hno : ¬setting.Reuses run id) (hg : setting.table.grammar.toRules.WellFormed) :
    setting.Forces root before scene id (setting.step run id) := by
  unfold Setting.step
  cases ha : scene.ahead with
  | nil =>
      rw [ha] at hid
      cases hid
  | leaf first label after =>
      rw [ha] at hid
      obtain rfl := Option.some_inj.mp hid
      have hh : run.store.Holds (.leaf first label) := @holds root before after run scene (.leaf first label) hs ha
      rw [if_pos (by exact hh.isLeaf)]
      exact hs.forces_stepTerminal hf ha hg
  | node first symbol changed below after =>
      rw [ha] at hid
      obtain rfl := Option.some_inj.mp hid
      have hh := @holds root before after run scene (.node first symbol changed below) hs ha
      rw [if_neg (by exact ne_true_of_eq_false hh.not_isLeaf)]
      exact hs.forces_stepNonterminal hf ha hno hg

end Shows

-- How a parse ends that shifts no tree whole: as a reader of the leaves does.
inductive EndsAsRead (setting : Setting) (root : Nat) (before : Forest) (scene : Scene) :
    Run × Except Fault Outcome → Prop where
  | accepted {run : Run} {other : Scene} {count : Nat} :
      Reachable setting scene other → scene.reader.Reads setting.table setting.passThrough count other.reader →
      setting.turn other = .accept → Accepts setting other → Shows root before run other →
      EndsAsRead setting root before scene (setting.accept run, .ok .accepted)
  | rejected {run : Run} {other : Scene} {count id state : Nat} {label : Label} {after : Forest} :
      Reachable setting scene other → scene.reader.Reads setting.table setting.passThrough count other.reader →
      setting.turn other = .reject → other.ahead = .leaf id label after →
      EndsAsRead setting root before scene (run, .ok (.rejected id state false))
  | failed {run : Run} {other : Scene} {count : Nat} {fault : Fault} :
      scene.reader.Reads setting.table setting.passThrough count other.reader → setting.turn other = .fail →
      (fault.OffStack → fault = .malformedRoot setting.document.root) →
      EndsAsRead setting root before scene (run, .error fault)

section

variable {setting : Setting} {root steps id bound : Nat} {before : Forest} {run : Run} {scene other : Scene}
  {last : Nat × Label} {result : Run × Except Fault Outcome} {reader : Reader}

theorem Setting.Follows.reads {count : Nat} (hf : setting.Follows scene other)
    (hr : other.reader.Reads setting.table setting.passThrough count reader) :
    ∃ count, scene.reader.Reads setting.table setting.passThrough count reader := by
  cases hf with
  | descend h _ => exact ⟨count, h ▸ hr⟩
  | take h _ => exact ⟨count, .take h hr⟩
  | reduce h _ => exact ⟨count + 1, .reduce h hr⟩

theorem EndsAsRead.head (hm : Moves setting scene other) (hf : setting.Follows scene other)
    (he : EndsAsRead setting root before other result) : EndsAsRead setting root before scene result := by
  cases he with
  | accepted hr hreads hturn ha hs =>
      obtain ⟨count, hreads⟩ := hf.reads hreads
      exact .accepted (hr.head hm) hreads hturn ha hs
  | rejected hr hreads hturn ha =>
      obtain ⟨count, hreads⟩ := hf.reads hreads
      exact .rejected (hr.head hm) hreads hturn ha
  | failed hreads hturn hfault =>
      obtain ⟨count, hreads⟩ := hf.reads hreads
      exact .failed hreads hturn hfault

-- With so many reductions at most to come, there is room for so many steps only.
theorem Setting.Follows.within (hf : setting.Follows scene other)
    (hw : scene.reader.Within setting.table setting.passThrough bound) :
    ∃ rest, other.reader.Within setting.table setting.passThrough rest ∧ other.size + rest = scene.size + bound := by
  cases hf with
  | descend h hsize => exact ⟨bound, h ▸ hw, by rw [hsize]⟩
  | take h hsize => exact ⟨bound, hw.take h, by rw [hsize]⟩
  | reduce h hsize =>
      obtain ⟨rest, rfl, hrest⟩ := hw.reduce h
      exact ⟨rest, hrest, by omega⟩

theorem drive_cut (hs : Shows root before run scene) (hlimit : 16 * scene.size + 1024 < steps) :
    ∃ cut, ∀ fuel, setting.drive (fuel + 1) steps run id = some (cut, .error (.noProgress steps)) := by
  have hcount := hs.count fun counts => { counts with steps := counts.steps + 1 }
  refine ⟨run.count fun counts => { counts with steps := counts.steps + 1 }, fun fuel => ?_⟩
  rw [Setting.drive, if_pos (by rw [Setting.stepLimit, hcount.size]; exact hlimit)]

-- A parse that takes all trees apart comes to an end if a reader makes only so many
-- reductions. It is the end of the reader, unless the limit on steps cuts it short.
theorem drive_endsAsRead (hs : Shows root before run scene) (hid : scene.ahead.roots.head? = some id)
    (hf : scene.Unshifted last) (hreparse : setting.reparse = true)
    (hg : setting.table.grammar.toRules.WellFormed) (hw : scene.reader.Within setting.table setting.passThrough bound) :
    ∃ result, (∀ fuel, 16 * (scene.size + bound) + 1025 ≤ steps + fuel →
        setting.drive (fuel + 1) steps run id = some result) ∧
      (EndsAsRead setting root before scene result ∨ ∃ cut steps, result = (cut, .error (.noProgress steps))) := by
  obtain ⟨room, hroom⟩ : ∃ room, 16 * (scene.size + bound) + 1025 ≤ steps + room := ⟨_, Nat.le_add_left _ _⟩
  induction room generalizing scene run id steps bound with
  | zero =>
      obtain ⟨cut, hcut⟩ := @drive_cut setting root steps id before run scene hs (by omega)
      exact ⟨_, fun fuel _ => hcut fuel, Or.inr ⟨cut, steps, rfl⟩⟩
  | succ room ih =>
      by_cases hlimit : 16 * scene.size + 1024 < steps
      · obtain ⟨cut, hcut⟩ := @drive_cut setting root steps id before run scene hs hlimit
        exact ⟨_, fun fuel _ => hcut fuel, Or.inr ⟨cut, steps, rfl⟩⟩
      have hcount := hs.count fun counts => { counts with steps := counts.steps + 1 }
      have hnot : ¬Setting.stepLimit
          (run.count fun counts => { counts with steps := counts.steps + 1 }).store < steps := by
        rw [Setting.stepLimit, hcount.size]
        exact hlimit
      have hforces : setting.Forces root before scene id
          (setting.step (run.count fun counts => { counts with steps := counts.steps + 1 }) id) :=
        hcount.forces_step hid hf (fun h => Bool.false_ne_true (h.1.symm.trans hreparse)) hg
      generalize hstep : setting.step (run.count fun counts => { counts with steps := counts.steps + 1 }) id = step
        at hforces
      cases hforces with
      | @«continue» after other next hm hv hfollows hshows hnext =>
          obtain ⟨rest, hrest, hsize⟩ := hfollows.within hw
          obtain ⟨result, hresult, hends⟩ :=
            @ih (steps + 1) next rest after other hshows hnext (hf.moves hm hv) hrest (by omega)
          refine ⟨result, fun fuel hfuel => ?_, hends.imp_left (·.head hm hfollows)⟩
          obtain ⟨fuel, rfl⟩ := Nat.exists_eq_add_of_le' (show 1 ≤ fuel by omega)
          rw [Setting.drive, hstep, if_neg hnot]
          exact hresult fuel (by omega)
      | accept hturn ha hshows =>
          refine ⟨_, fun fuel _ => ?_, Or.inl (.accepted .refl .refl hturn ha hshows)⟩
          rw [Setting.drive, hstep, if_neg hnot]
      | @reject after label behind hturn ha hbroke =>
          refine ⟨(after, .ok (.rejected id after.stack.state false)), fun fuel _ => ?_,
            Or.inl (.rejected .refl .refl hturn ha)⟩
          rw [Setting.drive, hstep, if_neg hnot, ← hbroke]
      | @fault after fault hturn hfault =>
          refine ⟨(after, .error fault), fun fuel _ => ?_, Or.inl (.failed .refl hturn hfault)⟩
          rw [Setting.drive, hstep, if_neg hnot]

-- A parse that ends without having shifted a tree whole has come to the end of the reader,
-- unless the limit on steps has cut it short.
theorem endsAsRead_of_unshifted {fuel : Nat} (hs : Shows root before run scene)
    (hid : scene.ahead.roots.head? = some id) (hf : scene.Unshifted last)
    (hg : setting.table.grammar.toRules.WellFormed) (hd : setting.drive fuel steps run id = some result)
    (hkept : setting.reparse = true ∨ result.1.metrics.optimisticShifts = run.metrics.optimisticShifts) :
    EndsAsRead setting root before scene result ∨ ∃ cut steps, result = (cut, .error (.noProgress steps)) := by
  induction fuel generalizing scene run id steps with
  | zero => cases hd
  | succ fuel ih =>
      rw [Setting.drive] at hd
      have hshown := hs.count fun counts => { counts with steps := counts.steps + 1 }
      have hkept : setting.reparse = true ∨ result.1.metrics.optimisticShifts =
          (run.count fun counts => { counts with steps := counts.steps + 1 }).metrics.optimisticShifts := hkept
      generalize run.count (fun counts => { counts with steps := counts.steps + 1 }) = run at hd hshown hkept
      have htallies : run.Tallies run.metrics.attempts run.metrics.optimisticShifts := ⟨rfl, Nat.le_refl _⟩
      split at hd
      · exact Or.inr ⟨_, _, (Option.some_inj.mp hd).symm⟩
      · -- a tree that is shifted whole would be among those counted at the end
        have hno : ¬setting.Reuses run id := by
          intro hr
          have hstep := Setting.tallies_of_reuses hr htallies
          have hmore : result.1.Tallies run.metrics.attempts (run.metrics.optimisticShifts + 1) := by
            generalize setting.step run id = step at hd hstep
            split at hd
            · exact Option.some_inj.mp hd ▸ hstep
            · exact Setting.tallies_drive hstep hd
            · exact Option.some_inj.mp hd ▸ hstep
            · exact Option.some_inj.mp hd ▸ hstep
          rcases hkept with hreparse | hcount
          · exact Bool.false_ne_true (hr.1.symm.trans hreparse)
          · exact Nat.lt_irrefl _ (hcount ▸ hmore.2)
        have hforces := hshown.forces_step hid hf hno hg
        have hstep := @Setting.tallies_step setting run id _ _ htallies
        generalize setting.step run id = step at hd hforces hstep
        cases hforces with
        | @«continue» after other next hm hv hfollows hshows hnext =>
            have hafter : after.metrics.optimisticShifts ≤ result.1.metrics.optimisticShifts :=
              (Setting.tallies_drive (⟨rfl, Nat.le_refl _⟩ : after.Tallies after.metrics.attempts _) hd).2
            refine (ih hshows hnext (hf.moves hm hv) hd (hkept.imp_right fun hcount => ?_)).imp_left (·.head hm hfollows)
            exact Nat.le_antisymm (hcount ▸ hstep.2) hafter
        | accept hturn ha hshows => exact Or.inl (Option.some_inj.mp hd ▸ .accepted .refl .refl hturn ha hshows)
        | reject hturn ha hbroke =>
            obtain rfl := Option.some_inj.mp hd
            rw [hbroke]
            exact Or.inl (.rejected .refl .refl hturn ha)
        | fault hturn hfault => exact Or.inl (Option.some_inj.mp hd ▸ .failed .refl hturn hfault)

end

end IncrementalLR
