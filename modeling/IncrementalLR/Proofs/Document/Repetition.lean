import IncrementalLR.Proofs.Document.Consistency
import IncrementalLR.Proofs.Parse.Seating

namespace IncrementalLR

-- A node but for the state that it was last given, and for the mark that the next commit
-- records it.
def Node.stateless (node : Node) : Node := { node with state := 0, pending := false }

theorem Node.stateless_of_view {node other : Node} (hidle : other.idle = node.idle) (hview : other.view = node.view) :
    other.stateless = node.stateless := by
  obtain ⟨⟨_, _, _, _, _, _, _, _, _⟩, _, _, _, _, _, _, _, _, _⟩ := node
  obtain ⟨⟨_, _, _, _, _, _, _, _, _⟩, _, _, _, _, _, _, _, _, _⟩ := other
  simp_all [idle, view, label, stateless]

-- Trees leave no choice in how their nodes are linked.
theorem Store.Linked.unique {store other : Store} {forest : Forest} {parent id : Nat} {left : Option Nat}
    (hl : store.Linked parent left forest) (ho : other.Linked parent left forest) (hid : id ∈ forest.ids) :
    { other.view id with host := none } = { store.view id with host := none } := by
  induction forest generalizing parent left with
  | nil => cases hid
  | leaf first label after ih =>
      rcases List.mem_cons.mp hid with rfl | hid
      · rw [ho.1, hl.1]
      · exact ih hl.2.2 ho.2.2 hid
  | node first symbol changed below after ihbelow ih =>
      rcases List.mem_cons.mp hid with rfl | hid
      · rw [ho.1, hl.1]
      · rcases List.mem_append.mp hid with hid | hid
        · exact ihbelow hl.2.2.1 ho.2.2.1 hid
        · exact ih hl.2.2.2 ho.2.2.2 hid

theorem View.eq_of_host {view other : View} (h : { other with host := none } = { view with host := none })
    (hhost : other.host = view.host) : other = view := by
  cases view
  cases other
  cases hhost
  simpa using h

-- Whether a run has the trees of another one, and has reduced nothing since.
structure Run.Spares (run after : Run) : Prop where
  size : after.store.size = run.store.size
  view : ∀ id, after.store.view id = run.store.view id
  reductions : after.metrics.reductions = run.metrics.reductions

theorem Run.Spares.trans {run middle after : Run} (hfirst : run.Spares middle) (hsecond : middle.Spares after) :
    run.Spares after :=
  ⟨hsecond.size.trans hfirst.size, fun id => (hsecond.view id).trans (hfirst.view id),
    hsecond.reductions.trans hfirst.reductions⟩

namespace Setting

variable {setting : Setting} {root id steps target : Nat} {before rest after below : Forest} {run : Run} {scene : Scene}
  {label first last : Label} {symbol : Symbol} {entries : List (Nat × Label)} {forest : Forest} {store : Store}

theorem clearChanged_of_unflagged (h : (run.node id).changed = false) : run.clearChanged id = run := by
  rw [Run.clearChanged, if_neg (ne_true_of_eq_false h)]

-- A step that goes on, within the limit on steps.
theorem drive_continue {other : Run} {next : Nat} (hlimit : steps ≤ stepLimit run.store)
    (h : setting.step (run.count fun counts => { counts with steps := counts.steps + 1 }) id = .ok (.continue other next))
    (fuel : Nat) : setting.drive (fuel + 1) steps run id = setting.drive fuel (steps + 1) other next := by
  have hlimit : ¬stepLimit (run.count fun counts => { counts with steps := counts.steps + 1 }).store < steps :=
    Nat.not_lt.mpr hlimit
  rw [drive, if_neg hlimit, h]

-- A tree that is taken as it is leads on to the one behind it.
theorem next_of_taken {tree : Tree} {piece : Piece} {other : Run} (hs : Shows root before run scene)
    (ha : scene.ahead = tree.before after) (hnil : after ≠ .nil) (hpiece : piece.forest = tree.forest)
    (hstack : other.stack = piece.frame :: run.stack) (hsize : other.store.size = run.store.size)
    (hview : ∀ id, other.store.view id = run.store.view id) :
    ∃ next, setting.next other tree.id = .ok next ∧ after.roots.head? = some next ∧
      Shows root before other ⟨piece :: scene.pieces, after, scene.size, other.validating, other.brokeDown⟩ := by
  have hnext := @Shows.next_push setting root before after run other scene tree tree piece hs ha hpiece hstack
    (.of_view hsize hview) ((hs.holds ha).of_view hview) rfl
  cases hresult : setting.next other tree.id with
  | error result =>
      rw [hresult] at hnext
      exact absurd hnext.1 hnil
  | ok next =>
      rw [hresult] at hnext
      exact ⟨next, rfl, hnext⟩

-- A token without a flag and without an action is passed through, and stays as it is.
theorem step_pass (hs : Shows root before run scene) (ha : scene.ahead = .leaf id label after) (hnil : after ≠ .nil)
    (hflag : label.changed = false) (hlookup : setting.lookup? scene.pieces label.key = none)
    (hv : scene.validating = false) (hpasses : setting.passes label = true) :
    ∃ other next, setting.step run id = .ok (.continue other next) ∧ after.roots.head? = some next ∧
      Shows root before other { scene with
        pieces := .passed (.leaf id label) (Piece.top scene.pieces) :: scene.pieces, ahead := after } ∧
      run.Spares other := by
  have hh : run.store.Holds (.leaf id label) := @Shows.holds root before after run scene (.leaf id label) hs ha
  have hleaf : (run.node id).isLeaf = true := hh.isLeaf
  have hkey : (run.node id).key = label.key := @Store.Holds.key run.store (.leaf id label) hh
  have hpass : setting.isPassThrough (run.node id) = true :=
    (@passes_of_holds setting run (.leaf id label) hh).trans hpasses
  have hclear : run.clearChanged id = run := clearChanged_of_unflagged ((congrArg Label.changed hh.1).trans hflag)
  have hq := quiet_pushPassed run id
  have hstack : (run.pushPassed id).stack =
      (Piece.passed (.leaf id label) (Piece.top scene.pieces)).frame :: run.stack := by
    rw [Run.pushPassed, hs.stack, Piece.state_frames]
    rfl
  rw [step, if_pos hleaf, stepTerminal, hkey, hs.action?, hlookup]
  dsimp only
  rw [withoutAction, hs.validating.trans hv, if_neg Bool.false_ne_true, if_pos hpass, hclear]
  dsimp only
  generalize hother : (run.pushPassed id).count (fun counts => { counts with passedThrough := counts.passedThrough + 1 }) =
    other
  have hflags : other.validating = scene.validating ∧ other.brokeDown = scene.brokeDown :=
    hother ▸ ⟨hs.validating, hs.brokeDown⟩
  obtain ⟨next, hnext, hhead, hshows⟩ := @next_of_taken setting root before after run scene (.leaf id label)
    (.passed (.leaf id label) (Piece.top scene.pieces)) other hs ha hnil rfl (hother ▸ hstack) (hother ▸ hq.size)
    (hother ▸ hq.view)
  rw [hflags.1, hflags.2] at hshows
  refine ⟨other, next, ?_, hhead, hshows, hother ▸ hq.size, hother ▸ hq.view, hother ▸ rfl⟩
  rw [show setting.next other id = .ok next from hnext]
  rfl

-- A tree without a flag is shifted whole, and stays as it is.
theorem step_reuse (hs : Shows root before run scene) (ha : scene.ahead = .node id symbol false below after)
    (hnil : after ≠ .nil) (hreparse : setting.reparse = false)
    (hlookup : setting.lookup? scene.pieces symbol = some (.goto target)) :
    ∃ other next, setting.step run id = .ok (.continue other next) ∧ after.roots.head? = some next ∧
      Shows root before other { scene with
        pieces := .symbol (.node id symbol false below) target :: scene.pieces, ahead := after, validating := true } ∧
      run.Spares other := by
  have hh := @Shows.holds root before after run scene (.node id symbol false below) hs ha
  have hleaf : (run.node id).isLeaf = false := hh.not_isLeaf
  have hflag : (run.node id).changed = false := congrArg Label.changed hh.1
  have hsymbol : (run.node id).symbol = symbol := congrArg Label.symbol hh.1
  have hq := quiet_pushSymbol run id target
  rw [step, if_neg (ne_true_of_eq_false hleaf), stepNonterminal]
  dsimp only
  rw [hreparse, hflag, hsymbol, hs.action?, hlookup, if_neg (by decide)]
  dsimp only
  generalize hother : ({ run.pushSymbol id target with validating := true } : Run).count
    (fun counts => { counts with optimisticShifts := counts.optimisticShifts + 1 }) = other
  have hflags : other.validating = true ∧ other.brokeDown = scene.brokeDown := hother ▸ ⟨rfl, hs.brokeDown⟩
  obtain ⟨next, hnext, hhead, hshows⟩ := @next_of_taken setting root before after run scene
    (.node id symbol false below) (.symbol (.node id symbol false below) target) other hs ha hnil rfl (hother ▸ rfl)
    (hother ▸ hq.size) (hother ▸ hq.view)
  rw [hflags.1, hflags.2] at hshows
  refine ⟨other, next, ?_, hhead, hshows, hother ▸ hq.size, hother ▸ hq.view, hother ▸ rfl⟩
  rw [show setting.next other id = .ok next from hnext]
  rfl

theorem step_accept (hs : Shows root before run scene) (ha : scene.ahead = .leaf id label after)
    (hlookup : setting.lookup? scene.pieces label.key = some .accept) :
    setting.step run id = .ok (.accept (setting.accept run)) := by
  have hh : run.store.Holds (.leaf id label) := @Shows.holds root before after run scene (.leaf id label) hs ha
  have hleaf : (run.node id).isLeaf = true := hh.isLeaf
  have hkey : (run.node id).key = label.key := @Store.Holds.key run.store (.leaf id label) hh
  rw [step, if_pos hleaf, stepTerminal, hkey, hs.action?, hlookup]

theorem drive_accept (hs : Shows root before run scene) (ha : scene.ahead = .leaf id label after)
    (hlookup : setting.lookup? scene.pieces label.key = some .accept) (hlimit : steps ≤ stepLimit run.store) :
    ∃ other, (∀ fuel, setting.drive (fuel + 1) steps run id = some (setting.accept other, .ok .accepted)) ∧
      Shows root before other scene ∧ run.Spares other := by
  have hcount := hs.count fun counts => { counts with steps := counts.steps + 1 }
  have hlimit : ¬stepLimit (run.count fun counts => { counts with steps := counts.steps + 1 }).store < steps :=
    Nat.not_lt.mpr hlimit
  exact ⟨_, fun fuel => by rw [drive, if_neg hlimit, step_accept hcount ha hlookup], hcount, rfl, fun _ => rfl, rfl⟩

-- Tokens at the front are passed through again.
theorem drive_passing (hs : Shows root before run scene) (ha : scene.ahead = .ofLeaves entries ++ rest)
    (hnil : rest ≠ .nil) (hv : scene.validating = false) (hid : scene.ahead.roots.head? = some id)
    (hentries : ∀ entry ∈ entries, entry.2.changed = false ∧ setting.passes entry.2 = true ∧
      setting.lookup? scene.pieces entry.2.key = none) (hlimit : steps + entries.length ≤ stepLimit run.store) :
    ∃ other next pieces, (∀ fuel, setting.drive (fuel + entries.length) steps run id =
        setting.drive fuel (steps + entries.length) other next) ∧ rest.roots.head? = some next ∧
      Shows root before other { scene with pieces := pieces, ahead := rest } ∧
      Piece.top pieces = Piece.top scene.pieces ∧
      Piece.contents .nil pieces = Piece.contents .nil scene.pieces ++ .ofLeaves entries ∧ run.Spares other := by
  induction entries generalizing scene run id steps with
  | nil =>
      obtain rfl : scene.ahead = rest := ha
      exact ⟨run, id, scene.pieces, fun _ => rfl, hid, hs, rfl, by simp [Forest.ofLeaves], rfl, fun _ => rfl, rfl⟩
  | cons entry entries ih =>
      obtain ⟨first, label⟩ := entry
      obtain ⟨⟨hflag, hpasses, hlookup⟩, hentries⟩ := List.forall_mem_cons.mp hentries
      have hahead : scene.ahead = .leaf first label (.ofLeaves entries ++ rest) := ha
      obtain rfl : first = id := by
        rw [hahead] at hid
        exact Option.some_inj.mp hid
      have hbehind : Forest.ofLeaves entries ++ rest ≠ .nil := by
        cases entries with
        | nil => exact hnil
        | cons entry entries => simp [Forest.ofLeaves]
      obtain ⟨middle, next, hstep, hnext, hshows, hspares⟩ :=
        step_pass (hs.count fun counts => { counts with steps := counts.steps + 1 }) hahead hbehind hflag hlookup hv hpasses
      rw [List.length_cons] at hlimit
      have hdrive := @drive_continue setting first steps run middle next (by omega) hstep
      have hmiddle : stepLimit middle.store = stepLimit run.store := by
        rw [stepLimit, hspares.size]
        rfl
      obtain ⟨other, last, pieces, hrest, hlast, hends, htop, hcontents, hkept⟩ :=
        @ih next (steps + 1) middle _ hshows rfl hv hnext hentries (by omega)
      refine ⟨other, last, pieces, fun fuel => ?_, hlast, hends, htop, ?_, ?_⟩
      · rw [List.length_cons, ← Nat.add_assoc, hdrive, hrest]
        congr 1
        omega
      · rw [hcontents, Piece.contents, Forest.append_assoc]
        rfl
      · exact Run.Spares.trans ⟨hspares.size, hspares.view, hspares.reductions⟩ hkept

-- Accepting puts below the root what is there already.
theorem view_accept (hp : run.store.Planted setting.document.root forest)
    (ha : (setting.accept run).store.Planted setting.document.root forest)
    (hroots : setting.document.bos :: (run.stack.nodes ++ [setting.document.eos]) = forest.roots)
    (hflag : (run.store.node setting.document.root).changed = false) :
    (setting.accept run).store.view id = run.store.view id := by
  have hroot := (List.nodup_cons.mp hp.nodup).1
  by_cases hid : id = setting.document.root
  · subst hid
    have hkept := @Store.node_linkChildren run.store setting.document.root setting.document.root none forest.roots
      (fun h => hroot (Forest.mem_ids_of_roots h)) nofun
    have hlt : setting.document.root < run.store.size := hp.lt_size _ List.mem_cons_self
    have hchildren : (run.store.node setting.document.root).children = forest.roots := hp.children
    have hnode : ((setting.accept run).store.node setting.document.root) =
        { run.store.node setting.document.root with children := forest.roots, pending := true, changed := false } := by
      unfold accept
      dsimp only
      rw [hroots, Store.setChanged, Store.node_update_self _ (by simpa using hlt), Store.setChildren, Store.revise,
        Store.node_update_self _ (by simpa using hlt), hkept]
    rw [Store.view, Store.view, hnode, ← hchildren, ← hflag]
    rfl
  · have hnode : (setting.accept run).store.node id =
        (Store.linkChildren setting.document.root none forest.roots run.store).node id := by
      unfold accept
      dsimp only
      rw [hroots, Store.setChanged, Store.node_update_ne _ hid, Store.setChildren, Store.revise,
        Store.node_update_ne _ hid]
    by_cases hmem : id ∈ forest.ids
    · refine View.eq_of_host (hp.linked.unique ha.linked hmem) ?_
      change ((setting.accept run).store.node id).unlinked.host = (run.store.node id).unlinked.host
      rw [hnode, Store.unlinked_linkChildren]
    · rw [Store.view, hnode, Store.node_linkChildren (fun h => hmem (Forest.mem_ids_of_roots h))
        (Option.some_ne_none id).symm]
      rfl

-- An attempt on one tree of the start symbol shifts it whole and accepts.
theorem attempt_again (hreparse : setting.reparse = false)
    (hp : store.Planted setting.document.root
      (setting.document.framed first last (.ofLeaves entries ++ .node id symbol false below .nil)))
    (hflag : (store.node setting.document.root).changed = false)
    (hentries : ∀ entry ∈ entries, entry.2.changed = false ∧ setting.passes entry.2 = true ∧
      setting.table.lookup? 0 entry.2.key = none)
    (hgoto : setting.table.lookup? 0 symbol = some (.goto target))
    (haccept : setting.table.lookup? target last.key = some .accept) (metrics : Metrics) :
    ∃ again metrics', (∀ fuel, entries.length + 2 ≤ fuel →
        setting.attempt fuel store metrics = some (again, metrics', .ok .accepted)) ∧
      metrics'.reductions = metrics.reductions ∧ again.size = store.size ∧ ∀ id, again.view id = store.view id := by
  obtain ⟨next, hnext, hhead⟩ := Document.exists_following_of_framed hp
  have hshows := Document.shows_of_framed hp { metrics with attempts := metrics.attempts + 1 }
  have hlength := Store.length_le_size hp.nodup hp.lt_size
  have hlimit : entries.length + 3 ≤ stepLimit store := by
    simp only [Document.framed, Forest.ids, Forest.ids_append, Forest.ids_ofLeaves, List.length_cons, List.length_append,
      List.length_map] at hlength
    rw [stepLimit]
    omega
  rw [Forest.append_assoc, Forest.node_append, Forest.nil_append] at hshows hhead
  -- the tokens at the front
  obtain ⟨passed, node, pieces, hpassed, hnode, hmiddle, htop, hcontents, hspares⟩ :=
    @drive_passing setting _ next 1 _ _ _ _ entries hshows rfl (by simp) rfl hhead hentries (by
      change 1 + entries.length ≤ stepLimit store
      omega)
  obtain rfl : id = node := Option.some_inj.mp hnode
  have hsame : stepLimit passed.store = stepLimit store := by
    rw [stepLimit, hspares.size]
    rfl
  -- the tree of the start symbol
  obtain ⟨shifted, eos, hstep, heos, hend, hkept⟩ :=
    step_reuse (hmiddle.count fun counts => { counts with steps := counts.steps + 1 }) rfl (by simp) hreparse
      (by rw [lookup?, htop]; exact hgoto)
  have hdrive := @drive_continue setting id (1 + entries.length) passed shifted eos (by omega) hstep
  obtain rfl : setting.document.eos = eos := Option.some_inj.mp heos
  -- the end of the input
  obtain ⟨run, haccepted, hlast, hrest⟩ := @drive_accept setting _ setting.document.eos (1 + entries.length + 1) _ _ _ _ last
    hend rfl haccept (by
      rw [stepLimit, hkept.size]
      change _ ≤ stepLimit passed.store
      omega)
  have hall : Run.Spares ⟨store, [], [], false, false, { metrics with attempts := metrics.attempts + 1 }⟩ run :=
    hspares.trans (Run.Spares.trans ⟨hkept.size, hkept.view, hkept.reductions⟩ hrest)
  have hforest : Piece.contents .nil (.symbol (.node id symbol false below) target :: pieces) =
      .ofLeaves entries ++ .node id symbol false below .nil := by
    rw [Piece.contents, hcontents]
    rfl
  obtain ⟨hplanted, -, hsize⟩ := Document.planted_accept hlast rfl
  rw [hforest] at hplanted
  have hbefore : run.store.Planted setting.document.root
      (setting.document.framed first last (.ofLeaves entries ++ .node id symbol false below .nil)) :=
    hp.congr (Nat.le_of_eq hall.size.symm) fun id _ => hall.view id
  have hroots : setting.document.bos :: (run.stack.nodes ++ [setting.document.eos]) =
      (setting.document.framed first last (.ofLeaves entries ++ .node id symbol false below .nil)).roots := by
    rw [hlast.stack, Document.framed, Forest.roots, Forest.roots_append, ← hforest, Piece.roots_contents]
    rfl
  have hunflagged : (run.store.node setting.document.root).changed = false :=
    (congrArg (fun view => view.label.changed) (hall.view setting.document.root)).trans hflag
  obtain ⟨again, hagain, hof⟩ := @exists_attempt_of_drive setting (setting.accept run) store metrics next (.ok .accepted) hnext
  obtain rfl := hagain rfl
  refine ⟨_, _, fun fuel hfuel => hof fuel ?_, hall.reductions, hsize.trans hall.size,
    fun id => (view_accept hbefore hplanted hroots hunflagged).trans (hall.view id)⟩
  obtain ⟨fuel, rfl⟩ := Nat.exists_eq_add_of_le' hfuel
  rw [show fuel + (entries.length + 2) = fuel + 1 + 1 + entries.length by omega, hpassed, hdrive, haccepted]

end Setting

namespace Piece

variable {store : Store} {pieces : List Piece} {piece : Piece}

theorem kept_of_mem (hk : store.Kept (contents .nil pieces)) (h : piece ∈ pieces) : store.Kept piece.forest := by
  induction pieces with
  | nil => cases h
  | cons first below ih =>
      obtain ⟨hbelow, hfirst⟩ := Store.kept_append.mp hk
      rcases List.mem_cons.mp h with rfl | h
      · exact hfirst
      · exact ih hbelow h

theorem roots_of_mem (h : piece ∈ pieces) {id : Nat} (hid : id ∈ piece.forest.roots) :
    id ∈ (contents .nil pieces).roots := by
  induction pieces with
  | nil => cases h
  | cons first below ih =>
      rw [contents, Forest.roots_append]
      rcases List.mem_cons.mp h with rfl | h
      · exact List.mem_append_right _ hid
      · exact List.mem_append_left _ (ih h)

theorem contents_of_leaves {holds : Nat × Label → Prop}
    (h : ∀ piece ∈ pieces, ∃ entry state, piece = .passed (.leaf entry.1 entry.2) state ∧ holds entry) :
    ∃ entries, contents .nil pieces = .ofLeaves entries ∧ ∀ entry ∈ entries, holds entry := by
  induction pieces with
  | nil => exact ⟨[], rfl, List.forall_mem_nil _⟩
  | cons first below ih =>
      obtain ⟨⟨entry, state, rfl, hentry⟩, hbelow⟩ := List.forall_mem_cons.mp h
      obtain ⟨entries, hcontents, hentries⟩ := ih hbelow
      refine ⟨entries ++ [entry], ?_, List.forall_mem_append.mpr ⟨hentries, List.forall_mem_singleton.mpr hentry⟩⟩
      rw [contents, hcontents, Forest.ofLeaves_append]
      rfl

end Piece

namespace Setting

variable {setting : Setting} {pieces : List Piece} {store : Store} {symbol : Symbol} {node : Nat} {front : List Nat}

-- A leaf does not lie where a nonterminal leads to.
theorem not_goto_of_leaf (ha : setting.table.OfAutomaton) {label : Label} {target : Nat}
    (hleaf : label.symbol.isNonterminal = false) : setting.lookup? pieces label.key ≠ some (.goto target) := by
  intro h
  rw [lookup?_eq] at h
  obtain ⟨id, hid, haction⟩ := Option.bind_eq_some_iff.mp h
  have hsymbol : setting.table.grammar.symbol id = label.key.key :=
    Rules.symbol_of_getElem? (ha.wellFormed.symbolId?_eq_some.mp hid)
  rw [ha.build] at haction
  cases candidate_of_action? haction with
  | goto _ hn =>
      rw [hsymbol, Label.key] at hn
      split at hn
      · cases hn
      · cases hs : label.symbol with
        | nonterminal name =>
            rw [hs] at hleaf
            cases hleaf
        | _ =>
            rw [hs] at hn
            cases hn

-- What lies on the stack where a parse accepts with nothing behind the start symbol.
theorem exists_single (ha : setting.table.OfAutomaton) (hs : setting.Seats pieces) (hflag : Unflagged pieces)
    (hk : store.Kept (Piece.contents .nil pieces)) (hroots : (Piece.contents .nil pieces).roots = front ++ [node])
    (hfront : ∀ id ∈ front, (store.node id).isLeaf = true ∧ (store.node id).changed = false ∧
      setting.table.lookup? 0 (store.node id).key = none)
    (haccept : setting.lookup? pieces symbol = some .accept) :
    ∃ entries name below target,
      Piece.contents .nil pieces = .ofLeaves entries ++ .node node name false below .nil ∧
      (∀ entry ∈ entries, entry.2.changed = false ∧ setting.passes entry.2 = true ∧
        setting.table.lookup? 0 entry.2.key = none) ∧
      setting.table.lookup? 0 name = some (.goto target) ∧ Piece.top pieces = target := by
  obtain ⟨above, tree, target, rest, rfl, habove, hrest, hzero, hgoto, htop⟩ := hs.accepts ha haccept
  have hholds : store.Holds tree :=
    Store.kept_forest.mp (Piece.kept_of_mem hk (List.mem_append_right _ List.mem_cons_self))
  have hfirst : setting.table.lookup? 0 tree.label.key = some (.goto target) := by
    rw [← hzero]
    exact hgoto
  -- the start symbol has an action in the first state, so that it is not one of the tokens
  obtain rfl : above = [] := by
    cases above with
    | nil => rfl
    | cons piece above =>
        obtain ⟨⟨passed, rfl⟩, -⟩ := List.forall_mem_cons.mp habove
        rw [List.cons_append, Piece.contents, Forest.roots_append,
          show (Piece.passed passed target).forest.roots = [passed.id] from Tree.roots_forest] at hroots
        have hmem : tree.id ∈ front := by
          rw [← (List.append_inj' hroots rfl).1]
          exact @Piece.roots_of_mem (above ++ .symbol tree target :: rest) (.symbol tree target)
            (List.mem_append_right _ List.mem_cons_self) tree.id (by simp [Piece.forest])
        have hnone := (hfront tree.id hmem).2.2
        rw [hholds.key, hfirst] at hnone
        cases hnone
  rw [List.nil_append] at hk hroots hflag htop ⊢
  rw [Piece.contents, Forest.roots_append, show (Piece.symbol tree target).forest.roots = [tree.id] from
    Tree.roots_forest] at hroots
  obtain ⟨hbefore, hnode⟩ := List.append_inj' hroots rfl
  obtain rfl : tree.id = node := List.singleton_inj.mp hnode
  have hentries : ∀ piece ∈ rest, ∃ (entry : Nat × Label) (state : Nat),
      piece = .passed (.leaf entry.1 entry.2) state ∧ entry.2.changed = false ∧ setting.passes entry.2 = true ∧
        setting.table.lookup? 0 entry.2.key = none := by
    intro piece hpiece
    obtain ⟨passed, rfl, hpasses⟩ := hrest.passing ha hzero piece hpiece
    have hmem : passed.id ∈ front := by
      rw [← hbefore]
      exact Piece.roots_of_mem hpiece (by simp [Piece.forest])
    have hpassed : store.Holds passed := Store.kept_forest.mp (Piece.kept_of_mem hk (List.mem_cons_of_mem _ hpiece))
    obtain ⟨hleaf, hchanged, hnone⟩ := hfront passed.id hmem
    rw [hpassed.key] at hnone
    cases passed with
    | leaf id label => exact ⟨(id, label), 0, rfl, (congrArg Label.changed hpassed.1).symm.trans hchanged, hpasses, hnone⟩
    | node id name changed below => cases hleaf.symm.trans hpassed.not_isLeaf
  obtain ⟨entries, hcontents, hentries⟩ := Piece.contents_of_leaves hentries
  cases tree with
  | leaf id label => exact absurd hgoto (not_goto_of_leaf ha hholds.2.2)
  | node id name changed below =>
      obtain rfl : changed = false := hflag
      have hname : setting.lookup? rest name = some (.goto target) := lookup?_label.symm.trans hgoto
      rw [lookup?, hzero] at hname
      refine ⟨entries, name, below, target, ?_, hentries, hname, htop⟩
      rw [Piece.contents, hcontents]
      rfl

end Setting

namespace Arena

variable {documents : List Document} {store after : Store} {document : Document} {grammar : Grammar} {mode : Mode}
  {parser parser' : Parser} {fuel node : Nat} {reparse : Bool} {front : List Nat}

-- A parse that follows on an accepted one shifts the tree of the start symbol whole. It does
-- so if no token was passed through behind that tree, and if those before it have no flag
-- and no action in the first state.
theorem parse_again (ha : Arena documents store) (hd : document ∈ documents)
    (hexisted : (store.node document.root).history.existedAt store.version = true) (hb : grammar.Built)
    (htable : parser.table = .ofGrammar grammar mode) (hreparse : parser.reparse = false)
    (hp : parser.parse fuel store document reparse = some (parser', after, .ok .accepted))
    (hchildren : (after.node document.root).children = document.bos :: (front ++ [node, document.eos]))
    (hfront : ∀ id ∈ front, (after.node id).isLeaf = true ∧ (after.node id).changed = false ∧
      parser.table.lookup? 0 (after.node id).key = none) :
    ∃ least parser'' again, (∀ fuel, least ≤ fuel →
        parser'.parse fuel after document false = some (parser'', again, .ok .accepted)) ∧
      parser''.metrics.reductions = 0 ∧ again.size = after.size ∧
      ∀ id, (again.node id).stateless = (after.node id).stateless := by
  obtain ⟨region, hh⟩ := ha.houses
  have ho := hh.owns document hd
  obtain ⟨forest, ht, -⟩ := ho.alive (ho.existed.mpr (beq_iff_eq.mp hexisted))
  obtain ⟨htable', hpass', hreparse'⟩ := Parser.made_parse hp
  obtain ⟨reparse', middle, first, last, content, scene, -, -, hreach, haccepts, hahead, hplanted, hflag⟩ :=
    ht.exists_scene_of_accepted ⟨grammar, _, hb, htable⟩ hp
  have hautomaton : (parser.setting document reparse').table.OfAutomaton :=
    show parser.table.OfAutomaton from htable ▸ SyntaxTable.ofAutomaton_ofGrammar hb mode
  obtain ⟨hseats, hunflagged⟩ := Setting.seats_reachable hautomaton hreach ⟨.nil, trivial⟩
  have haccept : (parser.setting document reparse').lookup? scene.pieces last.key = some .accept := by
    obtain ⟨id, label, behind, hleaf, haction⟩ := haccepts
    cases hahead.symm.trans hleaf
    exact haction
  have hroots : (Piece.contents .nil scene.pieces).roots = front ++ [node] := by
    have hall : document.bos :: (Piece.contents .nil scene.pieces ++ .leaf document.eos last .nil).roots =
        document.bos :: (front ++ [node, document.eos]) := hplanted.children.symm.trans hchildren
    rw [List.cons.injEq, Forest.roots_append] at hall
    exact List.append_cancel_right (show _ ++ [document.eos] = _ ++ [document.eos] by simpa [Forest.roots] using hall.2)
  have hkept := (Store.kept_append.mp hplanted.linked.kept.2).1
  obtain ⟨entries, name, below, target, hcontents, hentries, hgoto, htop⟩ :=
    Setting.exists_single hautomaton hseats hunflagged hkept hroots hfront haccept
  rw [hcontents] at hplanted
  rw [Setting.lookup?, htop] at haccept
  have hsetting : parser'.setting document (false || parser'.reparse) = parser.setting document false := by
    rw [hreparse', hreparse, Parser.setting, Parser.setting, htable', hpass']
    rfl
  obtain ⟨again, metrics'', hagain, hreductions, hsize, hview⟩ :=
    @Setting.attempt_again (parser.setting document false) node target below first last name entries _ rfl hplanted hflag
      hentries hgoto haccept default
  have hparse : ∀ fuel, entries.length + 2 ≤ fuel → parser'.parse fuel after document false =
      some ({ parser' with metrics := metrics'', accepted := true, error := none }, again, .ok .accepted) :=
    fun fuel hfuel => Parser.parse_of_accepted (hsetting ▸ hagain fuel hfuel)
  refine ⟨entries.length + 2, _, again, hparse, hreductions, hsize, fun id => ?_⟩
  by_cases hlt : id < after.size
  · exact Node.stateless_of_view (Parser.parse_idle (hparse _ (Nat.le_refl _)) hlt) (hview id)
  · rw [Store.node_of_size_le (Nat.not_lt.mp hlt), Store.node_of_size_le (hsize.symm ▸ Nat.not_lt.mp hlt)]

-- An ambiguous grammar with a wildcard, and a token that is passed through before the tree.
theorem parse_again_chained :
    ∃ parser' after node, Arena [Document.chained.2] Document.chained.1 ∧
      (Document.chained.1.node Document.chained.2.root).history.existedAt Document.chained.1.version = true ∧
      Parser.chained.parse 100 Document.chained.1 Document.chained.2 false = some (parser', after, .ok .accepted) ∧
      (after.node Document.chained.2.root).children = Document.chained.2.bos :: ([2] ++ [node, Document.chained.2.eos]) ∧
      (∀ id ∈ [2], (after.node id).isLeaf = true ∧ (after.node id).changed = false ∧
        Parser.chained.table.lookup? 0 (after.node id).key = none) ∧
      ∃ least parser'' again, (∀ fuel, least ≤ fuel →
          parser'.parse fuel after Document.chained.2 false = some (parser'', again, .ok .accepted)) ∧
        parser''.metrics.reductions = 0 ∧ again.size = after.size ∧
        ∀ id, (again.node id).stateless = (after.node id).stateless := by
  have hrun : (Parser.chained.parse 100 Document.chained.1 Document.chained.2 false).map (fun result =>
      (result.2.2, (result.2.1.node Document.chained.2.root).children, (result.2.1.node 2).isLeaf,
        (result.2.1.node 2).changed, Parser.chained.table.lookup? 0 (result.2.1.node 2).key)) =
      some (.ok .accepted, [Document.chained.2.bos, 2, 11, Document.chained.2.eos], true, false, none) := by
    decide +kernel
  obtain ⟨⟨parser', after, status⟩, hp, hresult⟩ := Option.map_eq_some_iff.mp hrun
  simp only [Prod.mk.injEq] at hresult
  obtain ⟨rfl, hchildren, hleaf, hchanged, hnone⟩ := hresult
  have harena : Arena [Document.chained.2] Document.chained.1 := by
    rw [Document.chained]
    exact @Arena.edit [] .empty _ (.create _) .empty trivial rfl
  have hexisted : (Document.chained.1.node Document.chained.2.root).history.existedAt Document.chained.1.version = true := by
    decide +kernel
  have hfront : ∀ id ∈ [2], (after.node id).isLeaf = true ∧ (after.node id).changed = false ∧
      Parser.chained.table.lookup? 0 (after.node id).key = none := List.forall_mem_singleton.mpr ⟨hleaf, hchanged, hnone⟩
  exact ⟨parser', after, 11, harena, hexisted, hp, hchildren, hfront,
    parse_again harena (List.mem_singleton_self _) hexisted built_chained rfl rfl hp hchildren hfront⟩

end Arena

end IncrementalLR
