import IncrementalLR.Proofs.Parse.Conclusion
import IncrementalLR.Proofs.Parse.Ending

namespace IncrementalLR

-- Trees without the leaves of some labels.
def Forest.without (drops : Label → Bool) : Forest → Forest
  | nil => nil
  | leaf id label after =>
      if drops label then after.without drops else leaf id label (after.without drops)
  | node id symbol changed below after =>
      node id symbol changed (below.without drops) (after.without drops)

-- The same for what is below a tree.
def Tree.without (drops : Label → Bool) : Tree → Tree
  | leaf id label => leaf id label
  | node id symbol changed below => node id symbol changed (below.without drops)

namespace Forest

variable {drops : Label → Bool} {forest other : Forest} {id : Nat} {label : Label}

theorem without_leaf_of_pos (h : drops label = true) : (leaf id label forest).without drops = forest.without drops := by
  rw [without, if_pos h]

theorem without_leaf_of_neg (h : drops label = false) :
    (leaf id label forest).without drops = leaf id label (forest.without drops) := by
  rw [without, if_neg (ne_true_of_eq_false h)]

@[simp] theorem without_append : (forest ++ other).without drops = forest.without drops ++ other.without drops := by
  induction forest with
  | nil => rfl
  | leaf id label after ih =>
      rw [leaf_append]
      cases h : drops label with
      | true => rw [without_leaf_of_pos h, without_leaf_of_pos h, ih]
      | false => rw [without_leaf_of_neg h, without_leaf_of_neg h, ih, leaf_append]
  | node id symbol changed below after _ ih => rw [node_append, without, without, ih, node_append]

theorem leaves_without : (forest.without drops).leaves = forest.leaves.filter fun entry => !drops entry.2 := by
  induction forest with
  | nil => rfl
  | leaf id label after ih =>
      cases h : drops label with
      | true => rw [without_leaf_of_pos h, ih, leaves, List.filter_cons_of_neg (by simp [h])]
      | false => rw [without_leaf_of_neg h, leaves, ih, leaves, List.filter_cons_of_pos (by simp [h])]
  | node id symbol changed below after ihbelow ih =>
      rw [without, leaves, ihbelow, ih, leaves, List.filter_append]

theorem without_eq_self (h : ∀ entry ∈ forest.leaves, drops entry.2 = false) : forest.without drops = forest := by
  induction forest with
  | nil => rfl
  | leaf id label after ih =>
      rw [without_leaf_of_neg (h (id, label) List.mem_cons_self), ih fun entry he => h entry (List.mem_cons_of_mem _ he)]
  | node id symbol changed below after ihbelow ih =>
      rw [without, ihbelow fun entry he => h entry (List.mem_append_left _ he),
        ih fun entry he => h entry (List.mem_append_right _ he)]

theorem without_ofLeaves {entries : List (Nat × Label)} :
    (ofLeaves entries).without drops = .ofLeaves (entries.filter fun entry => !drops entry.2) := by
  induction entries with
  | nil => rfl
  | cons entry rest ih =>
      obtain ⟨id, label⟩ := entry
      cases h : drops label with
      | true =>
          rw [ofLeaves, without_leaf_of_pos h, ih]
          simp [h]
      | false =>
          rw [ofLeaves, without_leaf_of_neg h, ih]
          simp [h, ofLeaves]

end Forest

namespace Setting

variable (setting : Setting)

-- What lies on the stack, and a scene, without all that is passed through.
def sift? : Piece → Option Piece
  | .symbol tree state => some (.symbol (tree.without setting.passes) state)
  | .span leaves state => some (.span leaves state)
  | .passed _ _ => none

def sift (scene : Scene) : Scene :=
  { scene with
    pieces := scene.pieces.filterMap setting.sift?
    ahead := scene.ahead.without setting.passes }

variable {setting : Setting} {settled : Bool} {spelled : List Nat} {pieces below : List Piece} {taken children : Forest}
  {count : Nat} {tokens : List (Nat × Label)} {scene other : Scene}

theorem Stacks.top_sift (hs : setting.Stacks false settled spelled pieces) :
    Piece.top (pieces.filterMap setting.sift?) = Piece.top pieces := by
  induction hs with
  | nil => rfl
  | passed _ _ _ ih => exact ih
  | token _ _ _ _ _ _ _ => rfl
  | span _ _ _ _ _ _ => rfl
  | node _ _ _ _ _ => rfl

theorem Stacks.contents_sift (hs : setting.Stacks false settled spelled pieces) :
    Piece.contents .nil (pieces.filterMap setting.sift?) = (Piece.contents .nil pieces).without setting.passes := by
  induction hs with
  | nil => rfl
  | @passed settled spelled pieces id label _ hl _ ih =>
      have hnone : (Forest.leaf id label .nil).without setting.passes = .nil := Forest.without_leaf_of_pos hl.1
      rw [List.filterMap_cons_none (by rfl), ih, Piece.contents, Forest.without_append]
      exact Forest.append_nil.symm.trans (congrArg _ hnone.symm)
  | @token settled terminal target spelled pieces id label _ _ _ hpasses _ _ ih =>
      have hkept : (Forest.leaf id label .nil).without setting.passes = .leaf id label .nil :=
        Forest.without_leaf_of_neg (hpasses.resolve_left Bool.false_ne_true)
      rw [List.filterMap_cons_some (by rfl), Piece.contents, ih, Piece.contents, Forest.without_append]
      exact congrArg _ hkept.symm
  | span hloose => cases hloose
  | node _ _ _ _ ih =>
      rw [List.filterMap_cons_some (by rfl), Piece.contents, ih, Piece.contents, Forest.without_append]
      rfl

theorem Stacks.isSpan_sift (hs : setting.Stacks false settled spelled pieces) :
    ∀ piece ∈ pieces.filterMap setting.sift?, piece.isSpan = false := by
  intro piece h
  obtain ⟨source, hsource, hsift⟩ := List.mem_filterMap.mp h
  cases source with
  | symbol tree state =>
      obtain rfl := Option.some_inj.mp hsift
      rfl
  | span leaves state => cases hs.isSpan rfl _ hsource
  | passed tree state => cases hsift

theorem Stacks.tail {loose : Bool} {piece : Piece} (hs : setting.Stacks loose settled spelled (piece :: pieces)) :
    ∃ settled spelled, setting.Stacks loose settled spelled pieces := by
  cases hs with
  | passed _ _ hs => exact ⟨_, _, hs⟩
  | token _ _ _ _ _ hs => exact ⟨_, _, hs⟩
  | span _ _ _ _ hs => exact ⟨_, _, hs⟩
  | node _ _ _ hs => exact ⟨_, _, hs⟩

-- What is below some symbols is a stack again.
theorem Stacks.of_pop {loose : Bool} (hs : setting.Stacks loose settled spelled pieces)
    (hp : Piece.pop taken count pieces = some (children, below)) :
    ∃ settled spelled, setting.Stacks loose settled spelled below := by
  induction pieces generalizing taken count settled spelled with
  | nil =>
      cases count with
      | zero =>
          cases hp
          exact ⟨_, _, hs⟩
      | succ count => cases hp
  | cons piece rest ih =>
      cases count with
      | zero =>
          cases hp
          exact ⟨_, _, hs⟩
      | succ count =>
          obtain ⟨_, _, htail⟩ := hs.tail
          exact ih htail hp

-- As many symbols are taken without what is passed through between them.
theorem Stacks.pop_sift (hs : setting.Stacks false settled spelled pieces) :
    Piece.pop (taken.without setting.passes) count (pieces.filterMap setting.sift?) =
      (Piece.pop taken count pieces).map fun (children, below) =>
        (children.without setting.passes, below.filterMap setting.sift?) := by
  induction hs generalizing taken count with
  | nil =>
      cases count with
      | zero => rfl
      | succ count => rfl
  | @passed settled spelled pieces id label _ hl _ ih =>
      cases count with
      | zero =>
          rw [Piece.pop, Piece.pop]
          rfl
      | succ count =>
          have h := @ih (.leaf id label taken) (count + 1)
          rw [Forest.without_leaf_of_pos hl.1] at h
          exact h
  | @token settled terminal target spelled pieces id label _ _ _ hpasses _ _ ih =>
      cases count with
      | zero => rfl
      | succ count =>
          have h := @ih (.leaf id label taken) count
          rw [Forest.without_leaf_of_neg (hpasses.resolve_left Bool.false_ne_true)] at h
          exact h
  | span hloose => cases hloose
  | @node settled production left target id spelled pieces below _ _ _ _ ih =>
      cases count with
      | zero => rfl
      | succ count =>
          exact @ih (.node id (setting.table.grammar.symbol left) false below taken) count

-- Reductions are the same.
theorem Stacks.reduced?_sift (hs : setting.Stacks false settled spelled scene.pieces) (production : Nat) :
    setting.reduced? production (setting.sift scene) = (setting.reduced? production scene).map setting.sift := by
  have hpop := @Stacks.pop_sift _ _ _ _ .nil (setting.table.grammar.production production).right.length hs
  unfold Setting.reduced?
  simp only [sift]
  rw [show Forest.nil.without setting.passes = .nil from rfl] at hpop
  rw [hpop]
  cases hbefore : Piece.pop .nil (setting.table.grammar.production production).right.length scene.pieces with
  | none => rfl
  | some popped =>
      obtain ⟨children, below⟩ := popped
      obtain ⟨_, _, hbelow⟩ := hs.of_pop hbefore
      cases (setting.table.grammar.production production).left with
      | none => rfl
      | some left =>
          simp only [Option.map_some, hbelow.top_sift]
          cases setting.table.goto? (Piece.top below) left with
          | none => rfl
          | some next => rfl

theorem lookup?_sift (hs : setting.Stacks false settled spelled scene.pieces) (symbol : Symbol) :
    setting.lookup? (setting.sift scene).pieces symbol = setting.lookup? scene.pieces symbol := by
  rw [lookup?, lookup?, sift, hs.top_sift]

-- A token that the grammar knows is not passed through.
theorem Sound.passes_head (hd : setting.Strict) (ht : ∀ entry ∈ tokens, entry.2.IsToken)
    (hs : setting.Sound false tokens scene) {first : Nat × Label} {id : Nat}
    (hfirst : scene.ahead.leaves.head? = some first) (hid : setting.idOf? first.2.key = some id) :
    setting.passes first.2 = false := by
  obtain ⟨inner, hinner, htotal⟩ := hs.total
  have hmem := List.mem_of_head? hfirst
  rw [hinner, Forest.leaves_append] at hmem
  rcases List.mem_append.mp hmem with h | h
  · have htoken : (first.1, first.2.parsed) ∈ tokens := by
      rw [← htotal, Forest.tokens_append]
      exact List.mem_append_right _ (List.mem_map_of_mem h)
    exact hd.apart.resolve_left Bool.false_ne_true first.2.parsed id (ht (first.1, first.2.parsed) htoken) hid
  · obtain rfl := List.mem_singleton.mp h
    exact hd.closing

theorem head?_without {drops : Label → Bool} {forest : Forest} {first : Nat × Label}
    (hfirst : forest.leaves.head? = some first) (hkept : drops first.2 = false) :
    (forest.without drops).leaves.head? = some first := by
  obtain ⟨rest, hrest⟩ := List.head?_eq_some_iff.mp hfirst
  rw [Forest.leaves_without, hrest, List.filter_cons_of_pos (by simp [hkept])]
  rfl

-- Behind a token there is the end of the input at least.
theorem Sound.sift_ne_nil (hd : setting.Strict) (hs : setting.Sound false tokens scene) :
    (setting.sift scene).ahead ≠ .nil := by
  obtain ⟨inner, hinner, -⟩ := hs.total
  intro h
  have hleaves := congrArg Forest.leaves h
  rw [sift, hinner, Forest.without_append, Forest.leaves_append, Document.closing,
    Forest.without_leaf_of_neg hd.closing] at hleaves
  exact absurd hleaves (by simp [Forest.leaves])

-- A step is one without what is passed through, or passes a token through.
theorem Sound.moves_sift (hd : setting.Strict) (ht : ∀ entry ∈ tokens, entry.2.IsToken) (hp : Plain setting scene)
    (hs : setting.Sound false tokens scene) (hm : Moves setting scene other) :
    Moves setting (setting.sift scene) (setting.sift other) ∨
      setting.sift other = setting.sift scene ∧ other.weight < scene.weight := by
  obtain ⟨settled, spelled, hstacks, -⟩ := hs.stack
  have hplain := hd.plain.resolve_left Bool.false_ne_true
  have hother := hs.moves hd.toApt ht hm
  cases hm with
  | @shift id next label after hahead hne haction =>
      left
      obtain ⟨symbol, hid⟩ := idOf?_of_lookup? haction
      have hkept : setting.passes label = false :=
        @Sound.passes_head _ _ _ hd ht hs (id, label) symbol (by rw [hahead]; rfl) hid
      refine @Moves.shift setting (setting.sift scene) id next label _ ?_ (hother.sift_ne_nil hd) ?_
      · rw [Setting.sift, hahead, Forest.without_leaf_of_neg hkept]
      · rw [lookup?_sift hstacks, haction]
  | @reduce first production _ hfirst haction h =>
      left
      obtain ⟨symbol, hid⟩ := idOf?_of_lookup? haction
      have hreduced := hstacks.reduced?_sift production
      rw [h, Option.map_some] at hreduced
      refine Moves.reduce (head?_without hfirst (hs.passes_head hd ht hfirst hid)) ?_ hreduced
      rw [lookup?_sift hstacks, haction]
  | breakDown _ _ hv _ => cases hp.validating.symm.trans hv
  | pass hahead _ _ _ hpasses =>
      right
      constructor
      · rw [Setting.sift, Setting.sift, hahead, Forest.without_leaf_of_pos hpasses]
        rfl
      · simp [Scene.weight, hahead, Forest.ids]
  | span _ haction _ =>
      rw [hplain] at haction
      cases haction
  | reduceSpan haction _ =>
      rw [hplain] at haction
      cases haction
  | descend hahead =>
      left
      have hdescend : (setting.sift scene).ahead = _ := congrArg (Forest.without setting.passes) hahead
      have h := @Moves.descend setting _ _ _ _ _ _ hdescend
      rw [← Forest.without_append] at h
      exact h
  | reuse hreparse hahead haction => cases (hp.moves hplain (.reuse hreparse hahead haction)).1.validating

theorem Sound.plain_sift (hp : Plain setting scene) (hs : setting.Sound false tokens scene) :
    Plain setting (setting.sift scene) := by
  obtain ⟨settled, spelled, hstacks, -⟩ := hs.stack
  refine ⟨hp.validating, hp.flat.imp_right fun ⟨entries, hentries⟩ => ?_, hstacks.isSpan_sift⟩
  exact ⟨_, (congrArg (Forest.without setting.passes) hentries).trans Forest.without_ofLeaves⟩

-- Without what is passed through, a parse that reuses nothing goes as the leaf parser does.
theorem Strict.tracks (hd : setting.Strict) (ht : ∀ entry ∈ tokens, entry.2.IsToken) :
    Tracks setting (fun scene => Plain setting scene ∧ setting.Sound false tokens scene)
      fun scene => setting.machine (setting.sift scene) := by
  have hplain := hd.plain.resolve_left Bool.false_ne_true
  refine ⟨fun ⟨hp, hs⟩ hm => ⟨(hp.moves hplain hm).1, hs.moves hd.toApt ht hm⟩,
    fun {scene other} ⟨hp, hs⟩ hm => ?_⟩
  rcases hs.moves_sift hd ht hp hm with hsift | ⟨hsame, hlt⟩
  · refine ((hs.plain_sift hp).machine hd.wellFormed hplain hsift).imp_right fun ⟨hsame, hlt⟩ => ⟨hsame, ?_⟩
    -- a step that adds a node does so without what is passed through
    have hsize : (setting.sift other).size = other.size ∧ (setting.sift scene).size = scene.size := ⟨rfl, rfl⟩
    have hsifted := hsift.weight hplain
    have hweight := hm.weight hplain
    omega
  · exact Or.inr ⟨congrArg setting.machine hsame, hlt⟩

section Verdicts

variable {id : Nat} {label : Label} {after : Forest}

theorem leaves_sift (hahead : scene.ahead = .leaf id label after) (hkept : setting.passes label = false) :
    (setting.machine (setting.sift scene)).leaves =
      setting.leaf label :: setting.leaves (after.without setting.passes) := by
  rw [machine, sift, hahead, Forest.without_leaf_of_neg hkept]
  rfl

theorem action?_sift (hs : setting.Stacks false settled spelled scene.pieces) :
    Machine.action? setting.table (setting.machine (setting.sift scene)).slots (setting.leaf label) =
      setting.lookup? scene.pieces label.key :=
  action?_machine.trans (lookup?_sift hs label.key)

-- Where a parse ends, the leaf parser does that gets nothing of what is passed through.
theorem Sound.verdict?_accepts (hd : setting.Strict) (ht : ∀ entry ∈ tokens, entry.2.IsToken)
    (hs : setting.Sound false tokens scene) (ha : Accepts setting scene) :
    (setting.machine (setting.sift scene)).verdict? setting.table = some .accepts := by
  obtain ⟨settled, spelled, hstacks, -⟩ := hs.stack
  obtain ⟨id, label, after, hahead, haction⟩ := ha
  obtain ⟨symbol, hid⟩ := idOf?_of_lookup? haction
  have hkept := @Sound.passes_head _ _ _ hd ht hs (id, label) symbol (by rw [hahead]; rfl) hid
  rw [Machine.verdict?, leaves_sift hahead hkept]
  simp only [action?_sift hstacks, haction]

theorem Sound.verdict?_rejects (hp : Plain setting scene) (hs : setting.Sound false tokens scene)
    (hr : Rejects setting scene) :
    (setting.machine (setting.sift scene)).verdict? setting.table = some .rejects := by
  obtain ⟨settled, spelled, hstacks, -⟩ := hs.stack
  obtain ⟨id, label, after, hahead, hsilent, hpasses⟩ := hr
  rw [hp.validating] at hpasses
  have hkept := hpasses.resolve_left Bool.false_ne_true
  have hleaf : (setting.leaf label).passes = false := hkept
  rw [Machine.verdict?, leaves_sift hahead hkept]
  rcases hsilent with haction | ⟨target, haction⟩
  · simp [action?_sift hstacks, haction, hleaf]
  · simp [action?_sift hstacks, haction, hleaf]

theorem Sound.verdict?_fails (hd : setting.Strict) (ht : ∀ entry ∈ tokens, entry.2.IsToken)
    (hs : setting.Sound false tokens scene) (hf : Fails setting scene) :
    (setting.machine (setting.sift scene)).verdict? setting.table = some .fails := by
  obtain ⟨settled, spelled, hstacks, -⟩ := hs.stack
  cases hf with
  | @shift id next label hahead haction =>
      obtain ⟨symbol, hid⟩ := idOf?_of_lookup? haction
      have hkept := @Sound.passes_head _ _ _ hd ht hs (id, label) symbol (by rw [hahead]; rfl) hid
      rw [Machine.verdict?, leaves_sift hahead hkept]
      simp only [action?_sift hstacks, haction]
      rfl
  | @pass id label hahead hpasses _ =>
      have hclosing := @Sound.last _ _ _ _ hs (.leaf id label) hahead
      rw [hahead] at hclosing
      obtain rfl := (Forest.leaf.inj hclosing).2.1
      cases hd.closing.symm.trans hpasses
  | @node id symbol changed below hahead =>
      have hclosing := @Sound.last _ _ _ _ hs (.node id symbol changed below) hahead
      rw [hahead] at hclosing
      cases hclosing
  | @reduce first production hfirst haction hnone =>
      obtain ⟨symbol, hid⟩ := idOf?_of_lookup? haction
      have hhead : (setting.sift scene).ahead.leaves.head? = some first :=
        head?_without hfirst (hs.passes_head hd ht hfirst hid)
      obtain ⟨rest, hrest⟩ := machine_leaves hhead
      have hreduce := @reduce_machine setting (setting.sift scene) hd.wellFormed hstacks.isSpan_sift production
      rw [hstacks.reduced?_sift, hnone] at hreduce
      rw [Machine.verdict?, hrest]
      simp only [action?_sift hstacks, haction]
      rw [machine, hreduce]
      rfl
  | span haction _ | reduceSpan haction _ =>
      rw [hd.plain.resolve_left Bool.false_ne_true] at haction
      cases haction

end Verdicts

end Setting

end IncrementalLR
