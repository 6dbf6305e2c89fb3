import IncrementalLR.Proofs.Parse.Content
import IncrementalLR.Proofs.Parse.Machine

namespace IncrementalLR

namespace Setting

variable (setting : Setting)

def idOf? (symbol : Symbol) : Option Nat := setting.table.grammar.symbolId? symbol.key

-- Leaves, pieces and scenes as a parser sees them that works on leaves alone.
def leaf (label : Label) : Leaf :=
  ⟨setting.idOf? label.key, setting.passes label, .node label.symbol label.text []⟩

def slot : Piece → Slot
  | .symbol tree state => ⟨state, some ((setting.idOf? tree.label.key).getD 0), tree.snapshot⟩
  | .span _ state => ⟨state, some 0, default⟩
  | .passed tree state => ⟨state, none, tree.snapshot⟩

def machine (scene : Scene) : Machine :=
  ⟨scene.pieces.map setting.slot, scene.ahead.leaves.map fun entry => setting.leaf entry.2⟩

end Setting

def Piece.isSpan : Piece → Bool
  | span _ _ => true
  | symbol _ _ | passed _ _ => false

section

variable {setting : Setting} {pieces below after : List Piece} {taken children : Forest} {count : Nat}
  {label : Label} {scene other : Scene}

theorem top_slots : Slot.top (pieces.map setting.slot) = Piece.top pieces := by
  cases pieces with
  | nil => rfl
  | cons piece below => cases piece <;> rfl

theorem lookup?_eq (symbol : Symbol) :
    setting.lookup? pieces symbol =
      (setting.idOf? symbol).bind (setting.table.action? (Piece.top pieces)) := by
  rw [Setting.lookup?, SyntaxTable.lookup?, Setting.idOf?]
  cases setting.table.grammar.symbolId? symbol.key with
  | none => rfl
  | some id => rfl

theorem action?_machine :
    Machine.action? setting.table (pieces.map setting.slot) (setting.leaf label) =
      setting.lookup? pieces label.key := by
  rw [Machine.action?, top_slots, lookup?_eq]
  rfl

theorem pop_slots (hspan : ∀ piece ∈ pieces, piece.isSpan = false) :
    Slot.pop taken.snapshots count (pieces.map setting.slot) =
      (Piece.pop taken count pieces).map fun (children, below) =>
        (children.snapshots, below.map setting.slot) := by
  induction pieces generalizing taken count with
  | nil =>
      cases count with
      | zero => rfl
      | succ count => rfl
  | cons piece rest ih =>
      cases count with
      | zero => rfl
      | succ count =>
          have hrest := fun taken count => @ih taken count fun piece h => hspan piece (by simp [h])
          cases piece with
          | symbol tree state =>
              have h := hrest (tree.forest ++ taken) count
              rw [Forest.snapshots_append, Tree.snapshots_forest] at h
              exact h
          | span leaves state =>
              have h := hspan (.span leaves state) (by simp)
              cases h
          | passed tree state =>
              have h := hrest (tree.forest ++ taken) (count + 1)
              rw [Forest.snapshots_append, Tree.snapshots_forest] at h
              exact h

theorem key_of_isNonterminal {symbol : Symbol} (hn : symbol.isNonterminal = true) : symbol.key = symbol := by
  cases symbol with
  | indentation name => cases hn
  | _ => rfl

theorem idOf?_symbol (hw : setting.table.grammar.toRules.WellFormed) {id : Nat}
    (h : id < setting.table.grammar.symbols.size)
    (hn : (setting.table.grammar.symbol id).isNonterminal = true) :
    setting.idOf? (setting.table.grammar.symbol id) = some id := by
  rw [Setting.idOf?, key_of_isNonterminal hn]
  exact hw.symbolId?_symbol h

-- The leaf parser reduces alike.
theorem reduce_machine (hw : setting.table.grammar.toRules.WellFormed)
    (hspan : ∀ piece ∈ scene.pieces, piece.isSpan = false) (production : Nat) :
    Machine.reduce setting.table production (scene.pieces.map setting.slot) =
      (setting.reduced? production scene).map fun other => other.pieces.map setting.slot := by
  have hpop := @pop_slots setting scene.pieces .nil
    (setting.table.grammar.production production).right.length hspan
  unfold Machine.reduce Setting.reduced?
  rw [show Forest.nil.snapshots = [] from rfl] at hpop
  simp only [hpop]
  cases Piece.pop .nil (setting.table.grammar.production production).right.length scene.pieces with
  | none => rfl
  | some popped =>
      obtain ⟨children, below⟩ := popped
      cases hleft : (setting.table.grammar.production production).left with
      | none => rfl
      | some left =>
          simp only [Option.map_some, top_slots]
          cases setting.table.goto? (Piece.top below) left with
          | none => rfl
          | some next =>
              obtain ⟨hlt, hn⟩ := hw.left_spec hleft
              have hkey : (⟨setting.table.grammar.symbol left, none, "", false⟩ : Label).key =
                  setting.table.grammar.symbol left := key_of_isNonterminal hn
              simp [Setting.slot, Tree.label, hkey, idOf?_symbol hw hlt hn, Tree.snapshot]

theorem machine_leaves {first : Nat × Label} (h : scene.ahead.leaves.head? = some first) :
    ∃ rest, (setting.machine scene).leaves = setting.leaf first.2 :: rest := by
  obtain ⟨rest, hrest⟩ := List.head?_eq_some_iff.mp h
  exact ⟨_, by rw [Setting.machine, hrest, List.map_cons]⟩

theorem idOf?_of_lookup? {symbol : Symbol} {action : Action}
    (h : setting.lookup? pieces symbol = some action) : ∃ id, setting.idOf? symbol = some id := by
  rw [lookup?_eq] at h
  obtain ⟨id, hid, -⟩ := Option.bind_eq_some_iff.mp h
  exact ⟨id, hid⟩

-- A step is one of the leaf parser, or breaks a tree down where that parser
-- stands still, or it has to do with reuse.
theorem Moves.machine (hw : setting.table.grammar.toRules.WellFormed)
    (hwild : ∀ pieces reach, setting.lookup? pieces (.wildcard reach) = none)
    (hspan : ∀ piece ∈ scene.pieces, piece.isSpan = false) (hm : Moves setting scene other) :
    (setting.machine scene).next setting.table = some (setting.machine other) ∨
      setting.machine other = setting.machine scene ∧ other.weight < scene.weight ∨
      scene.validating = true ∧ other.brokeDown = true ∨
      setting.reparse = false ∧ other.validating = true := by
  cases hm with
  | @shift id next label after ha _ haction =>
      left
      obtain ⟨symbol, hsymbol⟩ := idOf?_of_lookup? haction
      have hparsed : setting.idOf? label.parsed.key = some symbol := hsymbol
      simp only [Setting.machine, ha, Forest.leaves, List.map_cons, Machine.next, action?_machine, haction]
      simp [Setting.slot, Setting.leaf, Tree.label, Tree.snapshot, hparsed, hsymbol]
      exact ⟨rfl, rfl⟩
  | @reduce first production _ hfirst haction h =>
      left
      obtain ⟨rest, hrest⟩ := machine_leaves hfirst
      have hreduce := reduce_machine hw hspan production
      rw [h, Option.map_some] at hreduce
      have hahead := (tokens_reduced? .nil h).2
      have hleaves : (setting.machine other).leaves = setting.leaf first.2 :: rest := by
        rw [← hrest, Setting.machine, Setting.machine, hahead]
      rw [Machine.next, hrest, show (setting.machine scene).slots = scene.pieces.map setting.slot from rfl]
      simp only [action?_machine, haction, hreduce, Option.map_some, ← hleaves]
      rfl
  | breakDown _ _ hv _ => exact Or.inr (Or.inr (Or.inl ⟨hv, rfl⟩))
  | @pass id label after ha _ hsilent _ hpasses =>
      left
      simp only [Setting.machine, ha, Forest.leaves, List.map_cons, Machine.next, action?_machine]
      rcases hsilent with haction | ⟨target, haction⟩
      · simp [haction, Setting.leaf, hpasses, Setting.slot, Tree.snapshot, top_slots, Label.parsed]
      · simp [haction, Setting.leaf, hpasses, Setting.slot, Tree.snapshot, top_slots, Label.parsed]
  | span _ haction _ =>
      rw [hwild] at haction
      cases haction
  | reduceSpan haction _ =>
      rw [hwild] at haction
      cases haction
  | descend ha =>
      refine Or.inr (Or.inl ⟨?_, ?_⟩)
      · simp [Setting.machine, ha, Forest.leaves]
      · simp [Scene.weight, ha, Forest.ids]
  | reuse hreparse _ _ => exact Or.inr (Or.inr (Or.inr ⟨hreparse, rfl⟩))

theorem isSpan_again? {tree : Tree} (hspan : ∀ piece ∈ pieces, piece.isSpan = false)
    (h : setting.again? tree pieces = some after) : ∀ piece ∈ after, piece.isSpan = false := by
  unfold Setting.again? at h
  split at h
  · obtain rfl := Option.some_inj.mp h
    simpa [Piece.isSpan] using hspan
  · obtain rfl := Option.some_inj.mp h
    simpa [Piece.isSpan] using hspan
  · split at h
    · obtain rfl := Option.some_inj.mp h
      simpa [Piece.isSpan] using hspan
    · cases h

theorem isSpan_allAgain? {forest : Forest} (hspan : ∀ piece ∈ pieces, piece.isSpan = false)
    (h : setting.allAgain? forest pieces = some after) : ∀ piece ∈ after, piece.isSpan = false := by
  induction forest using Forest.spine_induction generalizing pieces with
  | nil =>
      obtain rfl := Option.some_inj.mp h
      exact hspan
  | before tree rest ih =>
      rw [allAgain?_before] at h
      obtain ⟨middle, hfirst, hrest⟩ := Option.bind_eq_some_iff.mp h
      exact ih (isSpan_again? hspan hfirst) hrest

theorem Setting.BreaksDown.isSpan (hb : setting.BreaksDown pieces after)
    (hspan : ∀ piece ∈ pieces, piece.isSpan = false) : ∀ piece ∈ after, piece.isSpan = false := by
  induction hb with
  | leaf h => exact isSpan_again? (fun piece hp => hspan piece (List.mem_cons_of_mem _ hp)) h
  | node h _ ih =>
      exact ih (isSpan_allAgain? (fun piece hp => hspan piece (List.mem_cons_of_mem _ hp)) h)
  | @span leaves state _ _ _ _ => cases hspan (.span leaves state) List.mem_cons_self
  | passed => simpa [Piece.isSpan] using hspan

theorem mem_of_pop {piece : Piece} (hp : Piece.pop taken count pieces = some (children, below))
    (hm : piece ∈ below) : piece ∈ pieces := by
  induction pieces generalizing taken count with
  | nil =>
      cases count with
      | zero =>
          cases hp
          exact hm
      | succ count => cases hp
  | cons first rest ih =>
      cases count with
      | zero =>
          cases hp
          exact hm
      | succ count => exact List.mem_cons_of_mem _ (ih hp)

theorem isSpan_reduced? {production : Nat} (hspan : ∀ piece ∈ scene.pieces, piece.isSpan = false)
    (h : setting.reduced? production scene = some other) : ∀ piece ∈ other.pieces, piece.isSpan = false := by
  obtain ⟨children, below, left, next, hpop, -, -, rfl⟩ := reduced?_spec h
  intro piece hm
  rcases List.mem_cons.mp hm with rfl | hm
  · rfl
  · exact hspan piece (mem_of_pop hpop hm)

-- Without wildcards no span comes onto the stack.
theorem Moves.isSpan (hwild : ∀ pieces reach, setting.lookup? pieces (.wildcard reach) = none)
    (hspan : ∀ piece ∈ scene.pieces, piece.isSpan = false) (hm : Moves setting scene other) :
    ∀ piece ∈ other.pieces, piece.isSpan = false := by
  cases hm with
  | shift _ _ _ => simpa [Piece.isSpan] using hspan
  | reduce _ _ h => exact isSpan_reduced? hspan h
  | breakDown _ _ _ hb => exact hb.isSpan hspan
  | pass _ _ _ _ _ => simpa [Piece.isSpan] using hspan
  | span _ haction _ =>
      rw [hwild] at haction
      cases haction
  | reduceSpan _ h => exact isSpan_reduced? hspan h
  | descend _ => exact hspan
  | reuse _ _ _ => simpa [Piece.isSpan] using hspan

end

end IncrementalLR
