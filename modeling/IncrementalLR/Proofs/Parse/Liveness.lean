import IncrementalLR.Proofs.Document.Standing
import IncrementalLR.Proofs.Parse.Halting
import IncrementalLR.Proofs.Parse.Paths
import IncrementalLR.Proofs.Parse.Projection

namespace IncrementalLR

namespace Setting

variable (setting : Setting)

-- A stack without spans whose states lead along the edges of the automaton. What a tree is
-- above its root does not matter, nor what it was that has been passed through.
def Along (pieces : List Piece) : Prop :=
  (∃ spelled, Path setting.table.graph spelled (pieces.map setting.slot)) ∧ ∀ piece ∈ pieces, piece.isSpan = false

variable {setting} {pieces after : List Piece} {tree : Tree} {forest : Forest} {symbol : Symbol} {scene other : Scene}
  {target state production : Nat}

-- A symbol comes onto the stack only along an edge.
theorem edge_of_lookup? (ha : setting.table.OfAutomaton)
    (h : setting.lookup? pieces symbol = some (.shift target) ∨ setting.lookup? pieces symbol = some (.goto target)) :
    ∃ id, setting.idOf? symbol = some id ∧ (id, target) ∈ setting.table.graph.edgesFrom (Piece.top pieces) := by
  rw [lookup?_eq, ha.build] at h
  rcases h with h | h
  · obtain ⟨id, hid, haction⟩ := Option.bind_eq_some_iff.mp h
    cases candidate_of_action? haction with
    | shift he _ => exact ⟨id, hid, he⟩
  · obtain ⟨id, hid, haction⟩ := Option.bind_eq_some_iff.mp h
    cases candidate_of_action? haction with
    | goto he _ => exact ⟨id, hid, he⟩

-- What a reduction takes is there on any stack whose states lead along the edges.
theorem exists_reduced? (ha : setting.table.OfAutomaton)
    (hs : ParseStack.Follows setting.table.graph (scene.pieces.map Piece.frame))
    (h : setting.lookup? scene.pieces symbol = some (.reduce production)) :
    ∃ other, setting.reduced? production scene = some other := by
  rw [Setting.lookup?, ← Piece.state_frames] at h
  obtain ⟨nodes, stack, left, next, hpop, hleft, hgoto, -, -⟩ := ha.exists_reduction hs h
  rw [Piece.popSymbols_frames] at hpop
  obtain ⟨⟨children, below⟩, hpieces, hframes⟩ := Option.map_eq_some_iff.mp hpop
  obtain ⟨-, rfl⟩ := Prod.mk.inj hframes
  rw [Piece.state_frames] at hgoto
  rw [Setting.reduced?, hpieces, hleft]
  dsimp only
  rw [hgoto]
  exact ⟨_, rfl⟩

namespace Along

theorem nil : setting.Along [] := ⟨⟨[], .nil⟩, nofun⟩

theorem counted (ha : setting.table.OfAutomaton) (hc : setting.Along pieces)
    (h : setting.lookup? pieces tree.label.key = some (.shift target) ∨
      setting.lookup? pieces tree.label.key = some (.goto target)) : setting.Along (.symbol tree target :: pieces) := by
  obtain ⟨⟨spelled, hpath⟩, hspans⟩ := hc
  obtain ⟨id, hid, he⟩ := edge_of_lookup? ha h
  refine ⟨⟨id :: spelled, ?_⟩, List.forall_mem_cons.mpr ⟨rfl, hspans⟩⟩
  rw [List.map_cons, slot, hid]
  rw [← @top_slots setting] at he
  exact .symbol hpath he

theorem passed (hc : setting.Along pieces) : setting.Along (.passed tree (Piece.top pieces) :: pieces) := by
  obtain ⟨⟨spelled, hpath⟩, hspans⟩ := hc
  refine ⟨⟨spelled, ?_⟩, List.forall_mem_cons.mpr ⟨rfl, hspans⟩⟩
  rw [List.map_cons, slot, ← top_slots]
  exact .passed hpath

theorem tail {piece : Piece} (hc : setting.Along (piece :: pieces)) : setting.Along pieces := by
  obtain ⟨⟨spelled, hpath⟩, hspans⟩ := hc
  refine ⟨?_, fun other h => hspans other (List.mem_cons_of_mem _ h)⟩
  generalize hslots : (piece :: pieces).map setting.slot = slots at hpath
  cases hpath with
  | nil => cases hslots
  | symbol hbelow _ => exact ⟨_, (List.cons.inj hslots).2 ▸ hbelow⟩
  | passed hbelow => exact ⟨_, (List.cons.inj hslots).2 ▸ hbelow⟩

theorem again? (ha : setting.table.OfAutomaton) (hc : setting.Along pieces)
    (h : setting.again? tree pieces = some after) : setting.Along after := by
  unfold Setting.again? at h
  split at h
  · rename_i haction
    obtain rfl := Option.some_inj.mp h
    exact hc.counted ha (Or.inl haction)
  · rename_i haction
    obtain rfl := Option.some_inj.mp h
    exact hc.counted ha (Or.inr haction)
  · split at h
    · obtain rfl := Option.some_inj.mp h
      exact hc.passed
    · cases h

theorem allAgain? (ha : setting.table.OfAutomaton) (hc : setting.Along pieces)
    (h : setting.allAgain? forest pieces = some after) : setting.Along after := by
  induction forest using Forest.spine_induction generalizing pieces with
  | nil =>
      obtain rfl := Option.some_inj.mp h
      exact hc
  | before tree rest ih =>
      rw [allAgain?_before] at h
      obtain ⟨middle, hfirst, hrest⟩ := Option.bind_eq_some_iff.mp h
      exact ih (hc.again? ha hfirst) hrest

theorem breaksDown (ha : setting.table.OfAutomaton) (hc : setting.Along pieces)
    (hb : setting.BreaksDown pieces after) : setting.Along after := by
  induction hb with
  | leaf h => exact hc.tail.again? ha h
  | node h _ ih => exact ih (hc.tail.allAgain? ha h)
  | span _ => cases hc.2 _ List.mem_cons_self
  | passed => exact hc.tail.passed

-- A reduction that the table asks for can be made.
theorem reduced? (ha : setting.table.OfAutomaton) (hc : setting.Along scene.pieces)
    (haction : setting.lookup? scene.pieces symbol = some (.reduce production)) :
    ∃ other, setting.reduced? production scene = some other ∧ setting.Along other.pieces := by
  obtain ⟨⟨spelled, hpath⟩, hspans⟩ := hc
  have haction' : Machine.action? setting.table (scene.pieces.map setting.slot) ⟨setting.idOf? symbol, false, default⟩ =
      some (.reduce production) := by
    rw [Machine.action?, top_slots, ← haction, lookup?_eq]
  rw [ha.build] at haction'
  obtain ⟨left, rest, slots, -, -, hslots, hother⟩ := hpath.reduce ha.wellFormed ha.faithful haction'
  rw [← ha.build, reduce_machine ha.wellFormed hspans] at hslots
  obtain ⟨other, hreduced, rfl⟩ := Option.map_eq_some_iff.mp hslots
  exact ⟨other, hreduced, ⟨_, hother⟩, isSpan_reduced? hspans hreduced⟩

theorem follows (hc : setting.Along pieces) : ParseStack.Follows setting.table.graph (pieces.map Piece.frame) := by
  induction pieces with
  | nil => exact .nil
  | cons piece below ih =>
      have hbelow := ih hc.tail
      obtain ⟨⟨spelled, hpath⟩, hspans⟩ := hc
      generalize hslots : (piece :: below).map setting.slot = slots at hpath
      cases piece with
      | symbol tree state =>
          cases hpath with
          | nil => cases hslots
          | symbol hpath he =>
              obtain ⟨hslot, rfl⟩ := List.cons.inj hslots
              cases hslot
              rw [top_slots, ← Piece.state_frames] at he
              exact .counted rfl he hbelow
          | passed hpath => cases (List.cons.inj hslots).1
      | span leaves state => cases hspans _ List.mem_cons_self
      | passed tree state =>
          cases hpath with
          | nil => cases hslots
          | symbol hpath he => cases (List.cons.inj hslots).1
          | passed hpath =>
              obtain ⟨hslot, rfl⟩ := List.cons.inj hslots
              obtain rfl : state = Slot.top (below.map setting.slot) := congrArg Slot.state hslot
              rw [top_slots, ← Piece.state_frames]
              exact .passed hbelow

theorem moves (ha : setting.table.OfAutomaton) (hplain : ∀ pieces reach, setting.lookup? pieces (.wildcard reach) = none)
    (hc : setting.Along scene.pieces) (hm : Moves setting scene other) : setting.Along other.pieces := by
  cases hm with
  | shift _ _ haction => exact hc.counted ha (Or.inl haction)
  | reduce _ haction h =>
      obtain ⟨other, hother, halong⟩ := hc.reduced? ha haction
      rw [h, Option.some_inj] at hother
      exact hother ▸ halong
  | breakDown _ _ _ hb => exact hc.breaksDown ha hb
  | pass _ _ _ _ _ => exact hc.passed
  | span _ haction _ =>
      rw [hplain] at haction
      cases haction
  | reduceSpan haction _ =>
      rw [hplain] at haction
      cases haction
  | descend _ => exact hc
  | reuse _ _ haction =>
      have hkey : ∀ symbol : Symbol, symbol.key.key = symbol.key := fun symbol => by cases symbol <;> rfl
      refine hc.counted ha (Or.inr ?_)
      rw [← haction, lookup?_eq, lookup?_eq, idOf?, idOf?]
      exact congrArg (fun symbol => (setting.table.grammar.symbolId? symbol).bind _) (hkey _)

end Along

-- A step that leaves as much to come as before is a reduction.
theorem reduces_of_moves (hplain : ∀ pieces reach, setting.lookup? pieces (.wildcard reach) = none)
    (hm : Moves setting scene other) :
    other.weight < scene.weight ∨
      ∃ first production, scene.ahead.leaves.head? = some first ∧
        setting.lookup? scene.pieces first.2.key = some (.reduce production) ∧
        setting.reduced? production scene = some other := by
  rcases hm.weight hplain with ⟨hlt, -⟩ | ⟨-, hsize⟩
  · exact Or.inl hlt
  · cases hm with
    | reduce hfirst haction h => exact Or.inr ⟨_, _, hfirst, haction, h⟩
    | reduceSpan haction _ =>
        rw [hplain] at haction
        cases haction
    | _ => exact absurd hsize (Nat.ne_of_lt (Nat.lt_succ_self _))

-- A parse goes on only so far: trees to come are used up, and before a leaf only so
-- many reductions can be made. Before a leaf that the grammar does not know there are none.
theorem Along.acc (ha : setting.table.OfAutomaton) (hfree : ConflictFree setting.table.grammar setting.table.graph)
    (hmode : setting.table.graph.mode ≠ .lr0)
    (hplain : ∀ pieces reach, setting.lookup? pieces (.wildcard reach) = none) (hc : setting.Along scene.pieces) :
    Acc (fun after scene => Moves setting scene after) scene := by
  induction hweight : scene.weight using Nat.strong_induction_on generalizing scene with
  | _ weight ih =>
      cases hfirst : scene.ahead.leaves.head? with
      | none =>
          refine Acc.intro _ fun other hmoves => ?_
          rcases reduces_of_moves hplain hmoves with hlt | ⟨first', production, hfirst', -, -⟩
          · exact ih _ (hweight ▸ hlt) (hc.moves ha hplain hmoves) rfl
          · cases hfirst.symm.trans hfirst'
      | some first =>
          cases hid : setting.idOf? first.2.key with
          | none =>
              refine Acc.intro _ fun other hmoves => ?_
              rcases reduces_of_moves hplain hmoves with hlt | ⟨first', production, hfirst', haction, -⟩
              · exact ih _ (hweight ▸ hlt) (hc.moves ha hplain hmoves) rfl
              · obtain rfl := Option.some_inj.mp (hfirst.symm.trans hfirst')
                rw [lookup?_eq, hid] at haction
                cases haction
          | some terminal =>
              obtain ⟨spelled, hpath⟩ := hc.1
              have hhalts := @ConflictFree.halts _ _ _ (setting.leaf first.2) _ _ hfree hmode hid hpath
              rw [← ha.build] at hhalts
              generalize hslots : scene.pieces.map setting.slot = slots at hhalts
              clear hpath
              induction hhalts generalizing scene with
              | intro slots _ ihslots =>
                  refine Acc.intro _ fun other hmoves => ?_
                  have hother := hc.moves ha hplain hmoves
                  rcases reduces_of_moves hplain hmoves with hlt | ⟨first', production, hfirst', haction, h⟩
                  · exact ih _ (hweight ▸ hlt) hother rfl
                  · obtain rfl := Option.some_inj.mp (hfirst.symm.trans hfirst')
                    have hreduce := reduce_machine ha.wellFormed hc.2 production
                    rw [h, Option.map_some] at hreduce
                    obtain ⟨_, _, _, _, -, -, -, hsame⟩ := reduced?_spec h
                    subst hsame
                    exact ihslots _ ⟨production, hslots ▸ action?_machine.trans haction, hslots ▸ hreduce⟩ hother
                      hweight hfirst rfl

-- Where states lead along the edges, no parse of a document meets a fault if the end of the
-- input is neither shifted nor passed through. It is an end of whatever a wildcard takes.
theorem not_fails {last : Nat × Label} (ha : setting.table.OfAutomaton)
    (hfinish : setting.table.grammar.toRules.Avoids (· == .finish)) (hlast : last.2.parsed = Document.eosLabel)
    (hpasses : setting.passes last.2 = false)
    (hfollows : ParseStack.Follows setting.table.graph (scene.pieces.map Piece.frame))
    (hcloses : Document.ClosesWith last scene) : ¬Fails setting scene := by
  obtain ⟨inner, hinner⟩ := hcloses
  have hsymbol : last.2.symbol = .finish := congrArg Label.symbol hlast
  have hfinal : ∀ {tree : Tree}, scene.ahead = tree.before .nil → tree = .leaf last.1 last.2 := by
    intro tree hahead
    rcases Document.before_of_append_last (hahead.symm.trans hinner) with ⟨-, htree, -⟩ | ⟨behind, -, hnil⟩
    · exact htree
    · cases behind <;> cases hnil
  have hreduced : ∀ {symbol production}, setting.lookup? scene.pieces symbol = some (.reduce production) →
      setting.reduced? production scene ≠ none := by
    intro symbol production haction hnone
    obtain ⟨other, hother⟩ := exists_reduced? ha hfollows haction
    cases hnone.symm.trans hother
  intro hf
  cases hf with
  | @shift id next label hahead haction =>
      obtain ⟨-, rfl⟩ := Tree.leaf.inj (@hfinal (.leaf id label) hahead)
      obtain ⟨symbol, hid, hedge⟩ := edge_of_lookup? ha (Or.inl haction)
      have hkey : last.2.key = .finish := congrArg Label.key hlast
      have hfinishid : setting.idOf? last.2.key = some finishId := by
        rw [hkey]
        exact ha.wellFormed.symbolId?_eq_some.mpr ha.wellFormed.finish
      rw [hfinishid, Option.some_inj] at hid
      exact no_edge_finish ha.wellFormed ha.faithful hfinish (hid ▸ hedge)
  | @pass id label hahead hpass _ =>
      obtain ⟨-, rfl⟩ := Tree.leaf.inj (@hfinal (.leaf id label) hahead)
      cases hpasses.symm.trans hpass
  | @node id symbol changed below hahead => cases @hfinal (.node id symbol changed below) hahead
  | reduce _ haction h | reduceSpan haction h => exact hreduced haction h
  | span _ hends =>
      have hmem : last ∈ scene.ahead.leaves := by
        rw [hinner, Forest.leaves_append]
        exact List.mem_append_right _ List.mem_cons_self
      have hend := hends last hmem
      rw [SyntaxTable.endsSpan, hsymbol] at hend
      cases hend

theorem Along.not_fails (ha : setting.table.OfAutomaton) (hfinish : setting.table.grammar.toRules.Avoids (· == .finish))
    (hclosing : setting.passes Document.eosLabel = false) (hc : setting.Along scene.pieces)
    (hcloses : setting.document.Closes scene) : ¬Fails setting scene :=
  @Setting.not_fails setting scene (setting.document.eos, Document.eosLabel) ha hfinish rfl hclosing hc.follows hcloses

end Setting

end IncrementalLR
