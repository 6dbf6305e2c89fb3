import IncrementalLR.Proofs.Parse.Paths
import IncrementalLR.Proofs.Parse.Projection

namespace IncrementalLR

namespace Setting

variable (setting : Setting)

-- A stack on which each symbol is where the table lets it follow on what is below, and
-- where what was passed through stays in the state below.
inductive Seats : List Piece → Prop where
  | nil : Seats []
  | passed {tree : Tree} {pieces : List Piece} :
      setting.passes tree.label = true → Seats pieces → Seats (.passed tree (Piece.top pieces) :: pieces)
  | symbol {tree : Tree} {target : Nat} {pieces : List Piece} :
      setting.lookup? pieces tree.label.key = some (.shift target) ∨
        setting.lookup? pieces tree.label.key = some (.goto target) →
      Seats pieces → Seats (.symbol tree target :: pieces)
  | span {leaves : List (Nat × Label)} {reach : Reach} {target : Nat} {pieces : List Piece} :
      setting.lookup? pieces (.wildcard reach) = some (.shift target) →
      Seats pieces → Seats (.span leaves target :: pieces)

-- Whether the tree on top of a stack has no flag, unless it is a leaf or was passed through.
def Unflagged : List Piece → Prop
  | .symbol (.node _ _ changed _) _ :: _ => changed = false
  | _ => True

variable {setting} {pieces below after : List Piece} {tree : Tree} {forest taken children : Forest} {count target : Nat}
  {scene other : Scene}

theorem Seats.tail {piece : Piece} (hs : setting.Seats (piece :: pieces)) : setting.Seats pieces := by
  cases hs with
  | passed _ hs => exact hs
  | symbol _ hs => exact hs
  | span _ hs => exact hs

theorem Seats.pop (hs : setting.Seats pieces) (hp : Piece.pop taken count pieces = some (children, below)) :
    setting.Seats below := by
  induction pieces generalizing taken count with
  | nil =>
      cases count with
      | zero => exact (Prod.mk.inj (Option.some_inj.mp hp)).2 ▸ hs
      | succ count => cases hp
  | cons piece rest ih =>
      cases count with
      | zero => exact (Prod.mk.inj (Option.some_inj.mp hp)).2 ▸ hs
      | succ count => exact ih hs.tail hp

theorem Seats.again? (hs : setting.Seats pieces) (h : setting.again? tree pieces = some after) :
    setting.Seats after := by
  unfold Setting.again? at h
  split at h
  · rename_i target haction
    exact Option.some_inj.mp h ▸ .symbol (Or.inl haction) hs
  · rename_i target haction
    exact Option.some_inj.mp h ▸ .symbol (Or.inr haction) hs
  · split at h
    · rename_i hpasses
      exact Option.some_inj.mp h ▸ .passed hpasses hs
    · cases h

theorem Seats.allAgain? (hs : setting.Seats pieces) (h : setting.allAgain? forest pieces = some after) :
    setting.Seats after := by
  induction forest using Forest.spine_induction generalizing pieces with
  | nil => exact Option.some_inj.mp h ▸ hs
  | before tree rest ih =>
      rw [allAgain?_before] at h
      obtain ⟨middle, hfirst, hrest⟩ := Option.bind_eq_some_iff.mp h
      exact ih (hs.again? hfirst) hrest

theorem unflagged_again? {id : Nat} {label : Label} (h : setting.again? (.leaf id label) pieces = some after) :
    Unflagged after := by
  unfold Setting.again? at h
  split at h
  · exact Option.some_inj.mp h ▸ trivial
  · exact Option.some_inj.mp h ▸ trivial
  · split at h
    · exact Option.some_inj.mp h ▸ trivial
    · cases h

-- Breaking down goes on to the last leaf, which alone is left on top.
theorem BreaksDown.seats (hb : setting.BreaksDown pieces after) (hs : setting.Seats pieces) :
    setting.Seats after ∧ Unflagged after := by
  induction hb with
  | leaf h => exact ⟨hs.tail.again? h, unflagged_again? h⟩
  | node h _ ih => exact ih (hs.tail.allAgain? h)
  | span haction => exact ⟨.span haction hs.tail, trivial⟩
  | passed =>
      cases hs with
      | passed hpasses hs => exact ⟨.passed hpasses hs, trivial⟩

-- A tree is looked up under the symbol of its root.
theorem lookup?_label {id : Nat} {symbol : Symbol} {changed : Bool} :
    setting.lookup? pieces (Tree.node id symbol changed children).label.key = setting.lookup? pieces symbol := by
  cases symbol <;> rfl

section Automaton

variable (ha : setting.table.OfAutomaton)

include ha

theorem lookup?_of_goto? {left : Nat} (hleft : (setting.table.grammar.symbol left).isNonterminal = true)
    (hlt : left < setting.table.grammar.symbols.size) (h : setting.table.goto? (Piece.top pieces) left = some target) :
    setting.lookup? pieces (setting.table.grammar.symbol left) = some (.goto target) := by
  rw [lookup?_eq, idOf?_symbol ha.wellFormed hlt hleft, Option.bind_some]
  unfold SyntaxTable.goto? at h
  split at h
  · rename_i haction
    rw [haction, Option.some_inj.mp h]
  · cases h

theorem seats_reduced? {production : Nat} (hs : setting.Seats scene.pieces)
    (h : setting.reduced? production scene = some other) : setting.Seats other.pieces ∧ Unflagged other.pieces := by
  obtain ⟨children, below, left, next, hpop, hleft, hgoto, rfl⟩ := reduced?_spec h
  obtain ⟨hlt, hn⟩ := ha.wellFormed.left_spec hleft
  refine ⟨.symbol (Or.inr ?_) (hs.pop hpop), rfl⟩
  rw [lookup?_label]
  exact lookup?_of_goto? ha hn hlt hgoto

theorem seats_moves (hm : Moves setting scene other) (hs : setting.Seats scene.pieces ∧ Unflagged scene.pieces) :
    setting.Seats other.pieces ∧ Unflagged other.pieces := by
  cases hm with
  | shift _ _ haction => exact ⟨.symbol (Or.inl haction) hs.1, trivial⟩
  | reduce _ _ h => exact seats_reduced? ha hs.1 h
  | breakDown _ _ _ hb => exact hb.seats hs.1
  | pass _ _ _ _ hpasses => exact ⟨.passed hpasses hs.1, trivial⟩
  | span _ haction _ => exact ⟨.span haction hs.1, trivial⟩
  | reduceSpan _ h => exact seats_reduced? ha hs.1 h
  | descend _ => exact hs
  | @reuse id next symbol below after _ _ haction =>
      exact ⟨.symbol (Or.inr (lookup?_label.trans haction)) hs.1, rfl⟩

theorem seats_reachable (hr : Reachable setting scene other) (hs : setting.Seats scene.pieces ∧ Unflagged scene.pieces) :
    setting.Seats other.pieces ∧ Unflagged other.pieces := by
  induction hr with
  | refl => exact hs
  | tail _ hm ih => exact seats_moves ha hm ih

theorem Seats.edge {leaf : Symbol} {reachable : List Piece} (h : setting.lookup? reachable leaf = some (.shift target) ∨
    setting.lookup? reachable leaf = some (.goto target)) :
    ∃ id, (id, target) ∈ setting.table.graph.edgesFrom (Piece.top reachable) :=
  h.elim ha.edge_of_shift ha.edge_of_goto

theorem Seats.reached (hs : setting.Seats pieces) : setting.table.graph.Reached (Piece.top pieces) := by
  induction hs with
  | nil => exact Or.inl rfl
  | passed _ _ ih => exact ih
  | symbol h _ _ =>
      obtain ⟨id, he⟩ := Seats.edge ha h
      exact Or.inr ⟨_, id, he⟩
  | span h _ _ =>
      obtain ⟨id, he⟩ := ha.edge_of_shift h
      exact Or.inr ⟨_, id, he⟩

-- No edge leads back to the first state, so that all is passed through that lies on the
-- stack there.
theorem Seats.passing (hs : setting.Seats pieces) (hzero : Piece.top pieces = 0) :
    ∀ piece ∈ pieces, ∃ tree, piece = .passed tree 0 ∧ setting.passes tree.label = true := by
  have hpositive : ∀ {id state : Nat}, ¬(id, 0) ∈ setting.table.graph.edgesFrom state :=
    fun he => Nat.lt_irrefl 0 (ha.faithful.edge_target _ _ _ he).1
  induction hs with
  | nil => exact List.forall_mem_nil _
  | @passed tree pieces hpasses _ ih =>
      have hzero : Piece.top pieces = 0 := hzero
      exact List.forall_mem_cons.mpr ⟨⟨tree, by rw [hzero], hpasses⟩, ih hzero⟩
  | @symbol tree target pieces h _ _ =>
      obtain rfl : target = 0 := hzero
      obtain ⟨id, he⟩ := Seats.edge ha h
      exact absurd he hpositive
  | @span leaves reach target pieces h _ _ =>
      obtain rfl : target = 0 := hzero
      obtain ⟨id, he⟩ := ha.edge_of_shift h
      exact absurd he hpositive

-- The item that a parse starts with is in the first state alone.
theorem zero_of_start {state : Nat} (hreached : setting.table.graph.Reached state)
    (hi : (setting.table.graph.state state).HasItem .start) : state = 0 := by
  refine hreached.resolve_right ?_
  rintro ⟨source, symbol, he⟩
  cases (ha.faithful.edge_items _ _ _ he _).mp hi with
  | given h =>
      obtain ⟨item, -, -, hstart⟩ := h
      cases congrArg Item.dot hstart
  | brought _ hb =>
      obtain ⟨left, -, hleft, -⟩ := hb
      rw [show Item.start.production = startProduction from rfl, ha.wellFormed.start_left] at hleft
      cases hleft

-- An edge into a state that has moved over the start symbol leads away from the first one.
theorem start_of_edge {state symbol dot : Nat} (hreached : setting.table.graph.Reached state)
    (he : (symbol, target) ∈ setting.table.graph.edgesFrom state) (hpos : 0 < dot)
    (hi : (setting.table.graph.state target).HasItem ⟨startProduction, dot⟩) :
    symbol = setting.table.grammar.start ∧ state = 0 := by
  obtain ⟨dot, rfl⟩ := Nat.exists_eq_add_of_le' hpos
  obtain ⟨hsource, hnext⟩ := ha.faithful.source he hi
  rw [ha.wellFormed.start_right] at hnext
  cases dot with
  | zero => exact ⟨(Option.some_inj.mp hnext).symm, zero_of_start ha hreached hsource⟩
  | succ dot => cases hnext

-- The state in which a parse accepts has moved over the start symbol.
theorem start_of_accept {symbol : Symbol} (h : setting.lookup? pieces symbol = some .accept) :
    ∃ dot, 0 < dot ∧ (setting.table.graph.state (Piece.top pieces)).HasItem ⟨startProduction, dot⟩ := by
  obtain ⟨id, hc⟩ := ha.candidate h
  cases hc with
  | @accept item hi hfinal hstart =>
      obtain ⟨production, dot⟩ := item
      obtain rfl : production = startProduction := hstart
      have hlength : (setting.table.grammar.production startProduction).right.length ≤ dot := of_decide_eq_true hfinal
      rw [ha.wellFormed.start_right] at hlength
      exact ⟨dot, hlength, hi⟩

-- Where a parse accepts there is one symbol on the stack, with what was passed through below
-- and above it.
theorem Seats.accepts (hs : setting.Seats pieces) {symbol : Symbol} (h : setting.lookup? pieces symbol = some .accept) :
    ∃ above tree target below, pieces = above ++ .symbol tree target :: below ∧
      (∀ piece ∈ above, ∃ tree, piece = .passed tree target) ∧ setting.Seats below ∧ Piece.top below = 0 ∧
      setting.lookup? below tree.label.key = some (.goto target) ∧ Piece.top pieces = target := by
  obtain ⟨dot, hpos, hi⟩ := start_of_accept ha h
  clear h
  induction hs with
  | nil =>
      have hdot := ha.faithful.dot_of_start hi
      exact absurd hpos (Nat.not_lt.mpr (Nat.le_of_eq hdot))
  | @passed tree pieces _ _ ih =>
      obtain ⟨above, start, target, below, rfl, habove, hbelow⟩ := ih hi
      have htop : Piece.top (above ++ .symbol start target :: below) = target := hbelow.2.2.2
      exact ⟨.passed tree target :: above, start, target, below, by rw [htop, List.cons_append],
        List.forall_mem_cons.mpr ⟨⟨tree, rfl⟩, habove⟩, hbelow⟩
  | @symbol tree target pieces h hs _ =>
      have hreached := hs.reached ha
      rcases h with h | h
      · obtain ⟨id, hc⟩ := ha.candidate h
        cases hc with
        | shift he hn =>
            obtain ⟨rfl, -⟩ := start_of_edge ha hreached he hpos hi
            cases hn.symm.trans ha.wellFormed.start_nonterminal
      · obtain ⟨id, he⟩ := ha.edge_of_goto h
        exact ⟨[], tree, target, pieces, rfl, List.forall_mem_nil _, hs, (start_of_edge ha hreached he hpos hi).2, h, rfl⟩
  | @span leaves reach target pieces h hs _ =>
      obtain ⟨id, hc⟩ := ha.candidate h
      cases hc with
      | shift he hn =>
          obtain ⟨rfl, -⟩ := start_of_edge ha (hs.reached ha) he hpos hi
          cases hn.symm.trans ha.wellFormed.start_nonterminal

end Automaton

end Setting

end IncrementalLR
