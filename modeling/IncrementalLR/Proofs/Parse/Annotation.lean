import IncrementalLR.Proofs.Ast.Parametricity
import IncrementalLR.Proofs.Document.Derivation
import IncrementalLR.Proofs.Parse.Values
import IncrementalLR.Proofs.Tree.Gap
import IncrementalLR.Proofs.Tree.Linked

namespace IncrementalLR

-- The values of trees as a template counts them, which takes a tree itself where it has no
-- abstract value.
def Forest.values (store : Store) : Forest → List AstValue
  | nil => []
  | leaf id label after =>
      if label.symbol != Source.padding then
        (store.node id).alternate.getD (.node id) :: after.values store
      else after.values store
  | node id symbol _ _ after =>
      if symbol != Source.padding then
        (store.node id).alternate.getD (.node id) :: after.values store
      else after.values store

namespace Store

variable {store other : Store} {forest below : Forest} {id : Nat} {symbol : Symbol} {changed : Bool}

theorem Kept.values (hk : store.Kept forest) :
    (forest.roots.filter fun child => (store.node child).symbol != Source.padding).map
      (fun child => (store.node child).alternate.getD (.node child)) = forest.values store := by
  induction forest with
  | nil => rfl
  | leaf id label after ih =>
      have hsymbol : (store.node id).symbol = label.symbol := congrArg Label.symbol hk.1.1
      rw [Forest.roots, Forest.values, List.filter_cons, hsymbol, ← ih hk.2]
      split
      · rfl
      · rfl
  | node id symbol changed below after _ ih =>
      have hsymbol : (store.node id).symbol = symbol := congrArg Label.symbol hk.1.1
      rw [Forest.roots, Forest.values, List.filter_cons, hsymbol, ← ih hk.2]
      split
      · rfl
      · rfl

-- What a template finds in a node are the values of the trees below.
theorem Holds.values (hh : store.Holds (.node id symbol changed below)) :
    Template.values store id = below.values store := by
  have hroots : (store.node id).children = below.roots := hh.2.1
  rw [Template.values, Template.countedChildren, hroots]
  exact hh.2.2.2.kept.values

end Store

theorem Forest.values_congr {store other : Store} {forest : Forest}
    (h : ∀ id ∈ forest.roots, (other.node id).alternate = (store.node id).alternate) :
    forest.values other = forest.values store := by
  induction forest with
  | nil => rfl
  | leaf id label after ih =>
      obtain ⟨hid, hafter⟩ := List.forall_mem_cons.mp h
      rw [values, values, hid, ih hafter]
  | node id symbol changed below after _ ih =>
      obtain ⟨hid, hafter⟩ := List.forall_mem_cons.mp h
      rw [values, values, hid, ih hafter]

-- A template makes the same of a node as long as the trees below it have their values.
theorem Template.eval_of_holds {store other : Store} {id : Nat} {symbol : Symbol} {changed flagged : Bool}
    {below : Forest} (hh : store.Holds (.node id symbol changed below))
    (ho : other.Holds (.node id symbol flagged below))
    (halternate : ∀ child ∈ below.roots, (other.node child).alternate = (store.node child).alternate)
    (template : Template) : template.eval other id = template.eval store id := by
  have hname : ∀ {store : Store} {changed : Bool}, store.Holds (.node id symbol changed below) →
      (store.node id).symbol.name = symbol.name := fun h => congrArg (fun label : Label => label.symbol.name) h.1
  refine eval_congr ?_ ((hname ho).trans (hname hh).symm) template
  rw [hh.values, ho.values, Forest.values_congr halternate]

section

variable {setting : Setting} {holds : Nat → Symbol → Forest → Prop} {before : Forest} {pieces after : List Piece}
  {scene other : Scene}

theorem Setting.BreaksDown.throughout (hb : setting.BreaksDown pieces after)
    (hf : (Piece.contents before pieces).Throughout holds) : (Piece.contents before after).Throughout holds := by
  induction hb with
  | leaf h =>
      rw [contents_again? h]
      exact hf
  | node h _ ih =>
      obtain ⟨hbelow, hnode⟩ := Forest.throughout_append.mp hf
      refine ih ?_
      rw [contents_allAgain? h]
      exact Forest.throughout_append.mpr ⟨hbelow, hnode.2.1⟩
  | span _ => exact hf
  | passed => exact hf

-- Steps other than reductions put nothing new above the leaves.
theorem Moves.throughout (hwild : ∀ pieces reach, setting.lookup? pieces (.wildcard reach) = none)
    (hm : Moves setting scene other) (hsize : other.size = scene.size)
    (hf : (Piece.contents before scene.pieces ++ scene.ahead).Throughout holds) :
    (Piece.contents before other.pieces ++ other.ahead).Throughout holds := by
  obtain ⟨hstack, hahead⟩ := Forest.throughout_append.mp hf
  cases hm with
  | shift ha _ _ =>
      rw [ha] at hahead
      exact Forest.throughout_append.mpr ⟨Forest.throughout_append.mpr ⟨hstack, trivial⟩, hahead⟩
  | reduce _ _ h =>
      obtain ⟨_, _, _, _, -, -, -, rfl⟩ := reduced?_spec h
      exact absurd hsize (Nat.succ_ne_self _)
  | breakDown _ _ _ hb => exact Forest.throughout_append.mpr ⟨hb.throughout hstack, hahead⟩
  | pass ha _ _ _ _ =>
      rw [ha] at hahead
      exact Forest.throughout_append.mpr ⟨Forest.throughout_append.mpr ⟨hstack, trivial⟩, hahead⟩
  | span _ haction _ =>
      rw [hwild] at haction
      cases haction
  | reduceSpan haction _ =>
      rw [hwild] at haction
      cases haction
  | descend ha =>
      rw [ha] at hahead
      exact Forest.throughout_append.mpr ⟨hstack, Forest.throughout_append.mpr hahead.2⟩
  | reuse _ ha _ =>
      rw [ha] at hahead
      exact Forest.throughout_append.mpr
        ⟨Forest.throughout_append.mpr ⟨hstack, hahead.1, hahead.2.1, trivial⟩, hahead.2.2⟩

end

namespace Setting

-- Whether there is a reduction by a production anywhere in the table.
def Uses (setting : Setting) (production : Nat) : Prop :=
  ∃ state terminal, setting.table.action? state terminal = some (.reduce production)

-- A node that has the abstract value which a production makes of it, and that stands over
-- the right side of that production.
structure Yields (setting : Setting) (store : Store) (id : Nat) (symbol : Symbol) (below : Forest) : Prop where
  holds : store.Holds (.node id symbol false below)
  made : ∃ production left, setting.Uses production ∧
    (setting.table.grammar.production production).left = some left ∧ setting.table.grammar.symbol left = symbol ∧
    setting.Covers false false (setting.table.grammar.production production).right below ∧
    (store.node id).alternate = (setting.table.grammar.production production).template.bind (·.eval store id)

variable {setting : Setting} {store other : Store} {id : Nat} {symbol : Symbol} {forest below : Forest}

theorem Yields.whole (hy : setting.Yields store id symbol below) : setting.Whole false symbol below := by
  obtain ⟨production, left, -, hleft, hsymbol, hcovers, -⟩ := hy.made
  exact ⟨production, left, hleft, hsymbol, hcovers⟩

theorem Yields.congr (hy : setting.Yields store id symbol below) {second : Setting}
    (htable : second.table = setting.table) (hpass : second.passThrough = setting.passThrough) :
    second.Yields store id symbol below := by
  obtain ⟨production, left, huses, hleft, hsymbol, hcovers, halternate⟩ := hy.made
  have hcovers := hcovers.congr htable hpass
  rw [← htable] at hleft hsymbol hcovers halternate
  exact ⟨hy.holds, production, left, by rwa [Uses, htable], hleft, hsymbol, hcovers, halternate⟩

theorem settled_of_yields (hf : forest.Throughout (setting.Yields store)) : forest.Settled (setting.Whole false) :=
  Forest.settled_iff.mpr (hf.imp fun _ _ _ _ _ hy => hy.whole)

-- The value of a node depends on nothing but the values of the nodes right below it.
theorem Yields.renew (hy : setting.Yields store id symbol below) (ho : other.Holds (.node id symbol false below))
    (hid : (other.node id).alternate = (store.node id).alternate)
    (hbelow : ∀ child ∈ below.roots, (other.node child).alternate = (store.node child).alternate) :
    setting.Yields other id symbol below := by
  obtain ⟨production, left, huses, hleft, hsymbol, hcovers, halternate⟩ := hy.made
  refine ⟨ho, production, left, huses, hleft, hsymbol, hcovers, hid.trans (halternate.trans ?_)⟩
  have heval : (fun template : Template => template.eval other id) = fun template => template.eval store id :=
    funext fun template => Template.eval_of_holds hy.holds ho hbelow template
  rw [heval]

theorem renew (hf : forest.Throughout (setting.Yields store)) (hk : other.Kept forest)
    (h : ∀ id ∈ forest.ids, (other.node id).alternate = (store.node id).alternate) :
    forest.Throughout (setting.Yields other) := by
  refine (hf.and hk.throughout).imp fun id symbol below hid hbelow ⟨hy, ho⟩ => ?_
  exact hy.renew ho (h id hid) fun child hchild => h child (hbelow (Forest.mem_ids_of_roots hchild))

section Reduction

variable {run after : Run} {production : Nat}

-- A reduction gives its new node the value that the template makes of the nodes below, and
-- leaves the values of all others as they are.
theorem alternate_reduce (h : setting.reduce run production = .ok after) :
    (∀ id, id < run.store.size → (after.store.node id).alternate = (run.store.node id).alternate) ∧
      (after.store.Holds (.node run.store.size symbol false below) → (∀ child ∈ below.roots, child < run.store.size) →
        (after.store.node run.store.size).alternate =
          (setting.table.grammar.production production).template.bind (·.eval after.store run.store.size)) := by
  unfold reduce at h
  dsimp only at h
  split at h
  · rename_i children below left _ _
    split at h
    · cases h
    · rename_i next _
      cases h
      simp only [Run.count, Store.allocateNode_snd]
      generalize hbase : (run.store.allocateNode _ children).1.setState run.store.size next = base
      have hmute : (run.store.push (.new (setting.table.grammar.symbol left) none "")).Mute base := by
        rw [← hbase]
        exact Store.Mute.setChildren.trans (.update fun _ => rfl)
      have hold : ∀ id, id < run.store.size → (base.node id).alternate = (run.store.node id).alternate := by
        intro id hlt
        rw [hmute.alternate, Store.node_push, if_neg (Nat.ne_of_lt hlt)]
      split
      · rename_i template htemplate
        rw [htemplate]
        have hlt : run.store.size < base.size := by
          rw [hmute.size, Store.size_push]
          exact Nat.lt_succ_self _
        have hself : ((base.setAlternate run.store.size (template.eval base run.store.size)).node run.store.size).alternate =
            template.eval base run.store.size := by
          rw [Store.setAlternate, Store.node_update_self _ hlt]
        have hothers : ∀ id, id < run.store.size →
            (base.setAlternate run.store.size (template.eval base run.store.size)).node id = base.node id :=
          fun id hid => Store.node_update_ne _ (Nat.ne_of_lt hid)
        refine ⟨fun id hid => (congrArg Node.alternate (hothers id hid)).trans (hold id hid), fun hh hroots => ?_⟩
        rw [hself]
        exact (Template.eval_of_holds (hh.of_view fun _ => (Store.view_setAlternate _).symm) hh
          (fun child hchild => congrArg Node.alternate (hothers child (hroots child hchild))) template).symm
      · rename_i htemplate
        refine ⟨hold, fun _ _ => ?_⟩
        rw [htemplate, hmute.alternate, Store.node_push, if_pos rfl]
        rfl
  · cases h

end Reduction

section Run

variable {root next production : Nat} {before content : Forest} {run after : Run} {scene last : Scene}
  {tokens : List (Nat × Label)}

-- A reduction that a step makes is one before the first leaf to come.
theorem Reducing.first (hr : setting.Reducing run id production) (hs : Shows root before run scene)
    (hid : scene.ahead.roots.head? = some id) :
    ∃ first, scene.ahead.leaves.head? = some first ∧
      setting.lookup? scene.pieces first.2.key = some (.reduce production) := by
  generalize hahead : scene.ahead = ahead at hid ⊢
  induction ahead using Forest.spine_induction with
  | nil => cases hid
  | before tree behind _ =>
      obtain rfl : tree.id = id := by simpa using hid
      have hh := hs.holds hahead
      cases tree with
      | leaf id label =>
          cases hr with
          | leaf _ haction =>
              rw [hs.action?, Run.node, hh.key] at haction
              exact ⟨(id, label), rfl, haction⟩
          | subtree hleaf _ => cases hleaf.symm.trans hh.isLeaf
      | node id symbol changed below =>
          cases hr with
          | leaf hleaf _ => cases hleaf.symm.trans hh.not_isLeaf
          | subtree _ hbefore =>
              have hd := hs.divides
              rw [hahead] at hd
              obtain ⟨first, hfirst, haction⟩ := reduceBefore_spec hd hbefore
              exact ⟨first, hfirst, (hs.action? _).symm.trans haction⟩

-- All nodes of a reduced scene have their values if they had them before.
theorem Sound.yields_reduce (ha : setting.Apt false) (hsound : setting.Sound false tokens scene)
    (hs : Shows root before run scene) {first : Nat × Label}
    (haction : setting.lookup? scene.pieces first.2.key = some (.reduce production))
    (hreduced : setting.reduced? production scene = some last) (hl : Shows root before after last)
    (hreduce : setting.reduce run production = .ok after)
    (hf : (Piece.contents before scene.pieces ++ scene.ahead).Throughout (setting.Yields run.store)) :
    (Piece.contents before last.pieces ++ last.ahead).Throughout (setting.Yields after.store) := by
  obtain ⟨settled, spelled, hstacks, -⟩ := hsound.stack
  obtain ⟨children, below, left, target, _, _, hpop, hleft, hcovers, -, -, rfl⟩ :=
    hstacks.covers_reduced ha.toRegular haction hreduced
  have hcontents := Piece.contents_of_pop before hpop
  rw [Forest.append_nil] at hcontents
  have hlt : ∀ id ∈ (Piece.contents before scene.pieces ++ scene.ahead).ids, id < run.store.size := by
    intro id hid
    rw [Forest.ids_append] at hid
    exact hs.divides.faces.lt_size id hid
  rw [hcontents] at hf hlt
  have hkept := Store.kept_append.mpr ⟨hl.divides.kept, hl.divides.faces.kept⟩
  obtain ⟨hstack, hahead⟩ := Store.kept_append.mp hkept
  obtain ⟨hbelow, hnode⟩ := Store.kept_append.mp hstack
  have hholds : after.store.Holds (.node scene.size (setting.table.grammar.symbol left) false children) := hnode.1
  obtain ⟨hold, hnew⟩ := @alternate_reduce setting (setting.table.grammar.symbol left) children run after production hreduce
  have hrenewed := renew hf
    (Store.kept_append.mpr ⟨Store.kept_append.mpr ⟨hbelow, hholds.2.2.2.kept⟩, hahead⟩) fun id hid => hold id (hlt id hid)
  obtain ⟨hrest, hlater⟩ := Forest.throughout_append.mp hrenewed
  obtain ⟨hunder, hchildren⟩ := Forest.throughout_append.mp hrest
  rw [lookup?_eq] at haction
  obtain ⟨terminal, -, haction⟩ := Option.bind_eq_some_iff.mp haction
  refine Forest.throughout_append.mpr ⟨Forest.throughout_append.mpr ⟨hunder, fun _ => ?_, hchildren, trivial⟩, hlater⟩
  refine ⟨hholds, production, left, ⟨_, terminal, haction⟩, hleft, rfl, hcovers, ?_⟩
  rw [← hs.size] at hholds ⊢
  refine hnew hholds fun child hchild => hlt child ?_
  simp only [Forest.ids_append, List.mem_append]
  exact Or.inl (Or.inr (Forest.mem_ids_of_roots hchild))

-- A step leaves it at that, whether it reduces or not.
theorem Sound.yields_step (ha : setting.Apt false) (hsound : setting.Sound false tokens scene)
    (hs : Shows root before run scene) (hid : scene.ahead.roots.head? = some id)
    (hf : (Piece.contents before scene.pieces ++ scene.ahead).Throughout (setting.Yields run.store))
    (hstep : setting.step run id = .ok (.continue after next)) :
    ∃ last, Moves setting scene last ∧ Shows root before after last ∧ last.ahead.roots.head? = some next ∧
      (Piece.contents before last.pieces ++ last.ahead).Throughout (setting.Yields after.store) := by
  have hplain := ha.plain.resolve_left Bool.false_ne_true
  have hspeaks := @speaks_step setting run id fun reach => (hs.action? _).trans (hplain _ _)
  rw [hstep] at hspeaks
  rcases hspeaks with hmute | ⟨rfl, production, hreducing, hreduce⟩
  · have hanswers : Answers setting root before scene id (setting.step run id) :=
      hs.answers_step hid ha.wellFormed
    rw [hstep] at hanswers
    obtain ⟨last, hm, hl, hnext⟩ := hanswers.continues
    have hsize : last.size = scene.size := by rw [← hl.size, hmute.size, hs.size]
    refine ⟨last, hm, hl, hnext, renew (hm.throughout hplain hsize hf) ?_ fun id _ => hmute.alternate id⟩
    exact Store.kept_append.mpr ⟨hl.divides.kept, hl.divides.faces.kept⟩
  · obtain ⟨first, hfirst, haction⟩ := hreducing.first hs hid
    have hshows := hs.reduce production ha.wellFormed
    rw [hreduce] at hshows
    obtain ⟨last, hlast, hl, hahead⟩ := hshows
    exact ⟨last, .reduce hfirst haction hlast, hl, hahead ▸ hid,
      hsound.yields_reduce ha hs haction hlast hl hreduce hf⟩

-- So does a step that accepts.
theorem Sound.yields_accept (ha : setting.Apt false) (ht : ∀ entry ∈ tokens, entry.2.IsToken)
    (hsound : setting.Sound false tokens scene)
    (hs : Shows setting.document.root setting.document.opening run scene)
    (hid : scene.ahead.roots.head? = some id)
    (hf : (Piece.contents setting.document.opening scene.pieces ++ scene.ahead).Throughout (setting.Yields run.store))
    (hstep : setting.step run id = .ok (.accept after)) :
    ∃ content, setting.document.Stands after.store content ∧ content.tokens = tokens ∧
      setting.Lone false setting.table.grammar.start content ∧ content.Throughout (setting.Yields after.store) := by
  have hspeaks := @speaks_step setting run id fun reach =>
    (hs.action? _).trans (ha.plain.resolve_left Bool.false_ne_true _ _)
  have hanswers : Answers setting _ _ scene id (setting.step run id) :=
    hs.answers_step hid ha.wellFormed
  rw [hstep] at hspeaks hanswers
  obtain rfl : after = setting.accept run := hspeaks
  have haccepts := hanswers.accepts
  have hahead := hsound.ahead_of_accepts ha.toRegular ht haccepts
  obtain ⟨hstands, htotal⟩ := hsound.stands ht hahead hs
  obtain ⟨settled, hstacks⟩ := hsound.accepts ha haccepts
  have hcontent := (Forest.throughout_append.mp hf).1
  rw [Document.contents_opening] at hcontent
  exact ⟨_, hstands, htotal, (hstacks.lone ha.wellFormed.start_nonterminal).2,
    renew (Forest.throughout_append.mp hcontent).2 hstands.kept fun id _ => mute_accept.alternate id⟩

-- What a drive makes of a document, once it accepts.
theorem Sound.yields_drive (ha : setting.Apt false) (ht : ∀ entry ∈ tokens, entry.2.IsToken)
    (hsound : setting.Sound false tokens scene)
    (hs : Shows setting.document.root setting.document.opening run scene)
    (hid : scene.ahead.roots.head? = some id)
    (hf : (Piece.contents setting.document.opening scene.pieces ++ scene.ahead).Throughout (setting.Yields run.store))
    {fuel steps : Nat} (hd : setting.drive fuel steps run id = some (after, .ok .accepted)) :
    ∃ content, setting.document.Stands after.store content ∧ content.tokens = tokens ∧
      setting.Lone false setting.table.grammar.start content ∧ content.Throughout (setting.Yields after.store) := by
  induction fuel generalizing steps run id scene with
  | zero => cases hd
  | succ fuel ih =>
      rw [drive] at hd
      have hcount := hs.count fun counts => { counts with steps := counts.steps + 1 }
      have hstore : (run.count fun counts => { counts with steps := counts.steps + 1 }).store = run.store := rfl
      rw [← hstore] at hf
      generalize run.count (fun counts => { counts with steps := counts.steps + 1 }) = counted at hd hcount hf
      split at hd
      · cases hd
      · split at hd
        · cases hd
        · rename_i middle next hstep
          obtain ⟨last, hm, hl, hnext, hlast⟩ := hsound.yields_step ha hcount hid hf hstep
          exact ih (hsound.moves ha ht hm) hl hnext hlast hd
        · rename_i last hstep
          obtain rfl : last = after := congrArg Prod.fst (Option.some_inj.mp hd)
          exact hsound.yields_accept ha ht hcount hid hf hstep
        · cases hd

end Run

-- An attempt that accepts leaves all nodes with the values that their productions make of
-- them, whether it has reduced them or reused them.
theorem attempt_yields {fuel : Nat} {metrics metrics' : Metrics} (ha : setting.Apt false)
    (hs : setting.document.Stands store forest) (hf : forest.Throughout (setting.Yields store))
    (h : setting.attempt fuel store metrics = some (other, metrics', .ok .accepted)) :
    ∃ content, setting.document.Stands other content ∧ content.tokens = forest.tokens ∧
      setting.Lone false setting.table.grammar.start content ∧ content.Throughout (setting.Yields other) := by
  obtain ⟨first, run, hfirst, hdrive, hstore⟩ := drive_of_attempt h
  obtain rfl := hstore rfl
  rw [hs.following?] at hfirst
  refine (sound_scene (settled_of_yields hf)).yields_drive ha (Forest.isToken_tokens.mpr hs.tokens)
    (hs.shows { metrics with attempts := metrics.attempts + 1 }) hfirst ?_ hdrive
  exact Forest.throughout_append.mpr ⟨trivial, Forest.throughout_append.mpr ⟨hf, trivial⟩⟩

end Setting

end IncrementalLR
