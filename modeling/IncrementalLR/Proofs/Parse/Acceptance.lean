import IncrementalLR.Proofs.Parse.Climbing
import IncrementalLR.Proofs.Parse.Projection

namespace IncrementalLR

namespace Machine

variable {table : SyntaxTable} {machine after last : Machine}

-- A machine that halts bounds all machines before it.
theorem Steps.acc (hs : Steps table machine last) (hlast : last.next table = none) :
    Acc (fun after machine => machine.next table = some after) machine := by
  induction hs using Relation.ReflTransGen.head_induction_on with
  | refl =>
      refine Acc.intro _ fun after h => ?_
      rw [hlast] at h
      cases h
  | head h _ ih =>
      refine Acc.intro _ fun other ho => ?_
      rw [h, Option.some_inj] at ho
      exact ho ▸ ih

-- There is one way only that a machine takes to where it halts.
theorem Steps.to_last (hs : Steps table machine last) (ha : Steps table machine after)
    (hlast : last.next table = none) : Steps table after last := by
  induction ha with
  | refl => exact hs
  | tail _ h ih =>
      rcases Relation.ReflTransGen.cases_head ih with rfl | ⟨middle, hmiddle, hrest⟩
      · rw [hlast] at h
        cases h
      · rw [h, Option.some_inj] at hmiddle
        exact hmiddle ▸ hrest

theorem Steps.eq_of_halted (hs : Steps table machine last) (hh : machine.next table = none) :
    machine = last := by
  rcases Relation.ReflTransGen.cases_head hs with rfl | ⟨after, h, -⟩
  · rfl
  · rw [hh] at h
    cases h

-- Whether a machine accepts on its first leaf.
def Accepts (table : SyntaxTable) (machine : Machine) : Prop :=
  ∃ leaf rest, machine.leaves = leaf :: rest ∧ action? table machine.slots leaf = some .accept

theorem Accepts.next (ha : Accepts table machine) : machine.next table = none := by
  obtain ⟨leaf, rest, hleaves, haction⟩ := ha
  rw [Machine.next, hleaves]
  simp only [haction]

-- Leaves that are passed through come onto the stack as they are.
theorem steps_passing (table : SyntaxTable) (slots : List Slot) {passing : List Leaf} (rest : List Leaf)
    (hp : ∀ leaf ∈ passing, leaf.Passed) :
    ∃ others, others.map Slot.copy = (passing.map Leaf.copy).reverse ∧
      Slot.top (others ++ slots) = Slot.top slots ∧
      Steps table ⟨slots, passing ++ rest⟩ ⟨others ++ slots, rest⟩ := by
  induction passing generalizing slots with
  | nil => exact ⟨[], rfl, rfl, .refl⟩
  | cons leaf passing ih =>
      have ⟨hpasses, hs⟩ := hp leaf List.mem_cons_self
      obtain ⟨others, hcopies, htop, hsteps⟩ :=
        ih (⟨Slot.top slots, none, leaf.copy⟩ :: slots) fun other ho => hp other (List.mem_cons_of_mem _ ho)
      refine ⟨others ++ [⟨Slot.top slots, none, leaf.copy⟩], ?_, ?_, ?_⟩
      · simp [hcopies]
      · rw [List.append_assoc]
        exact htop
      · rw [List.append_assoc]
        refine .head ?_ hsteps
        simp [Machine.next, Machine.action?, hs, hpasses]

end Machine

section Wildcards

variable {grammar : Grammar} {graph : StateGraph}

theorem Valid.not_wildcard (hw : grammar.toRules.WellFormed) (hwild : grammar.toRules.Avoids Symbol.isWildcard)
    {spelled : List Nat} {item : Item} {terminal : Nat} (hv : Valid grammar.toRules spelled item terminal) :
    (grammar.symbol terminal).isWildcard = false := by
  induction hv with
  | start =>
      rw [hw.symbol_finish]
      rfl
  | advanced _ _ ih => exact ih
  | begun _ _ hb => exact hb.avoids hwild fun symbol hs => hwild _ symbol (List.mem_of_mem_drop hs)
  | passed _ _ _ ih => exact ih

-- A table has no actions on wildcards if the grammar has none.
theorem Candidate.not_wildcard (hw : grammar.toRules.WellFormed) (hf : Faithful grammar graph)
    (hwild : grammar.toRules.Avoids Symbol.isWildcard) {state symbol : Nat} {action : Action}
    (hc : Candidate grammar graph state symbol action) : (grammar.symbol symbol).isWildcard = false := by
  have hedge : ∀ {target}, (symbol, target) ∈ graph.edgesFrom state →
      (grammar.symbol symbol).isWildcard = false := by
    intro target he
    obtain ⟨item, -, hn⟩ := hf.edge_next state symbol target he
    exact hwild item.production symbol (Item.next?_mem hn)
  cases hc with
  | accept _ _ _ =>
      rw [hw.symbol_finish]
      rfl
  | reduce ha _ _ =>
      rcases ha.2 with ⟨-, -, h⟩ | ⟨-, h⟩
      · exact h
      · obtain ⟨spelled, hv⟩ := hf.justified _ _ _ h
        exact hv.not_wildcard hw hwild
  | shift he _ => exact hedge he
  | goto he _ => exact hedge he

theorem lookup?_wildcard_of_avoids (hw : grammar.toRules.WellFormed) (hf : Faithful grammar graph)
    (hwild : grammar.toRules.Avoids Symbol.isWildcard) {setting : Setting}
    (htable : setting.table = .build graph grammar) (pieces : List Piece) (reach : Reach) :
    setting.lookup? pieces (.wildcard reach) = none := by
  rw [lookup?_eq, Option.bind_eq_none_iff]
  intro id hid
  rw [Option.eq_none_iff_forall_ne_some]
  intro action h
  rw [htable] at h
  rw [Setting.idOf?, htable] at hid
  have hsymbol := Rules.symbol_of_getElem? (hw.symbolId?_eq_some.mp hid)
  have hnot := (candidate_of_action? h).not_wildcard hw hf hwild
  rw [hsymbol] at hnot
  cases hnot

end Wildcards

namespace Deterministic

variable {grammar : Grammar} {graph : StateGraph}

-- The machine accepts behind a derivation from the start symbol, with the tree of
-- the derivation on its stack.
theorem accepts_derives (hc : Deterministic grammar graph) {passing leaves more : List Leaf} {finish : Leaf}
    {trees : List Snapshot} (hp : ∀ leaf ∈ passing, leaf.Passed)
    (hd : Derives grammar.toRules Leaf.Passed [grammar.start] leaves trees)
    (hs : finish.symbol = some finishId)
    (hleaves : grammar.toRules.Avoids (· == .finish) ∨ ∀ leaf ∈ leaves, leaf.symbol ≠ some finishId) :
    ∃ slots, (slots.map Slot.copy).reverse = passing.map Leaf.copy ++ trees ∧
      Machine.Steps (.build graph grammar) ⟨[], passing ++ (leaves ++ finish :: more)⟩
        ⟨slots, finish :: more⟩ ∧
      Machine.Accepts (.build graph grammar) ⟨slots, finish :: more⟩ := by
  obtain ⟨passed, hcopies, htop, hpassing⟩ :=
    Machine.steps_passing (.build graph grammar) [] (leaves ++ finish :: more) hp
  rw [List.append_nil] at hpassing htop
  have hstart : Slot.top passed = 0 := htop
  have hi : (graph.state (Slot.top passed)).HasItem .start := by
    rw [hstart]
    exact (hc.faithful.start_items .start).mpr (.given rfl)
  have hright : (grammar.production Item.start.production).right.drop Item.start.dot =
      [grammar.start] ++ [] := by
    rw [show Item.start.production = startProduction from rfl, hc.wellFormed.start_right]
    rfl
  obtain ⟨slots, hpiled, hbuilt, hsteps⟩ := @steps_derives grammar graph hc [grammar.start] leaves trees
    hd passed .start [] finish more finishId hi hright hs
    (Or.inr ⟨.nil, by rw [hstart]; exact hc.admits_start⟩) hleaves
  have hfinal := hc.hasItem_piled hpiled hright hi
  refine ⟨slots ++ passed, ?_, hpassing.trans hsteps, finish, more, rfl, ?_⟩
  · rw [List.map_append, List.reverse_append, hbuilt, hcopies, List.reverse_reverse]
  · rw [Machine.action?, hs, Option.bind_some]
    refine hc.action? (.accept hfinal ?_ rfl) fun _ h => by cases h
    simp [Item.isFinal, Item.start, hc.wellFormed.start_right]

theorem lookup?_wildcard (hc : Deterministic grammar graph) {setting : Setting}
    (htable : setting.table = .build graph grammar) (pieces : List Piece) (reach : Reach) :
    setting.lookup? pieces (.wildcard reach) = none :=
  lookup?_wildcard_of_avoids hc.wellFormed hc.faithful hc.wildcards htable pieces reach

end Deterministic

-- The leaf parser halts at a leaf that the table is silent on, without accepting.
theorem halts_of_silent {setting : Setting} {scene : Scene} {id : Nat} {label : Label} {after : Forest}
    (hahead : scene.ahead = .leaf id label after) (hsilent : setting.Silent scene.pieces label)
    (hpasses : setting.passes label = false) :
    (setting.machine scene).next setting.table = none ∧
      ¬Machine.Accepts setting.table (setting.machine scene) := by
  have hleaves : (setting.machine scene).leaves =
      setting.leaf label :: after.leaves.map fun entry => setting.leaf entry.2 := by
    rw [Setting.machine, hahead]
    rfl
  have haction : Machine.action? setting.table (setting.machine scene).slots (setting.leaf label) =
      setting.lookup? scene.pieces label.key := action?_machine
  constructor
  · rw [Machine.next, hleaves]
    simp only [haction]
    rcases hsilent with h | ⟨target, h⟩
    · simp [h, Setting.leaf, hpasses]
    · simp [h, Setting.leaf, hpasses]
  · rintro ⟨first, rest, hfirst, haccept⟩
    rw [hleaves] at hfirst
    obtain ⟨rfl, -⟩ := List.cons.inj hfirst
    rw [haction] at haccept
    rcases hsilent with h | ⟨target, h⟩
    · cases h.symm.trans haccept
    · cases h.symm.trans haccept

-- Whether a parse goes as a machine does while something holds of it: a step either is one
-- of the machine, or leaves less to come.
structure Tracks (setting : Setting) (holds : Scene → Prop) (machine : Scene → Machine) : Prop where
  moves : ∀ {scene other}, holds scene → Moves setting scene other → holds other
  next : ∀ {scene other}, holds scene → Moves setting scene other →
    (machine scene).next setting.table = some (machine other) ∨
      machine other = machine scene ∧ other.weight < scene.weight

namespace Tracks

variable {setting : Setting} {holds : Scene → Prop} {machine : Scene → Machine} {scene other : Scene}

theorem reachable (ht : Tracks setting holds machine) (hs : holds scene) (hr : Reachable setting scene other) :
    holds other ∧ Machine.Steps setting.table (machine scene) (machine other) := by
  induction hr with
  | refl => exact ⟨hs, .refl⟩
  | tail _ hm ih =>
      obtain ⟨hscene, hsteps⟩ := ih
      refine ⟨ht.moves hscene hm, ?_⟩
      rcases ht.next hscene hm with h | ⟨h, -⟩
      · exact hsteps.tail h
      · exact h ▸ hsteps

-- If the machine ends, so does the parse.
theorem acc (ht : Tracks setting holds machine) (hs : holds scene)
    (hacc : Acc (fun after machine => machine.next setting.table = some after) (machine scene)) :
    Acc (fun after scene => Moves setting scene after) scene := by
  generalize hm : machine scene = start at hacc
  induction hacc generalizing scene with
  | intro start _ ih =>
      -- between two steps of the machine there is less and less to come
      induction hn : scene.weight using Nat.strong_induction_on generalizing scene with
      | _ weight ihweight =>
          refine Acc.intro _ fun other hmoves => ?_
          have hother := ht.moves hs hmoves
          rcases ht.next hs hmoves with h | ⟨h, hlt⟩
          · exact ih _ (hm ▸ h) hother rfl
          · exact ihweight _ (hn ▸ hlt) hother (h.trans hm) rfl

end Tracks

-- Scenes in which nothing is reused.
structure Plain (setting : Setting) (scene : Scene) : Prop where
  validating : scene.validating = false
  flat : setting.reparse = true ∨ ∃ entries, scene.ahead = .ofLeaves entries
  isSpan : ∀ piece ∈ scene.pieces, piece.isSpan = false

section

variable {setting : Setting} {scene other : Scene}

theorem Plain.moves (hwild : ∀ pieces reach, setting.lookup? pieces (.wildcard reach) = none)
    (hp : Plain setting scene) (hm : Moves setting scene other) :
    Plain setting other ∧ other.brokeDown = scene.brokeDown := by
  have hspan := hm.isSpan hwild hp.isSpan
  have hflat : ∀ {id label after}, scene.ahead = .leaf id label after →
      setting.reparse = true ∨ ∃ entries, after = .ofLeaves entries := by
    intro id label after ha
    refine hp.flat.imp_right fun ⟨entries, he⟩ => ?_
    rw [ha] at he
    cases entries with
    | nil => cases he
    | cons entry rest => exact ⟨rest, (Forest.leaf.inj he).2.2⟩
  have hnode : ∀ {id symbol changed below after}, scene.ahead = .node id symbol changed below after →
      setting.reparse = true := by
    intro id symbol changed below after ha
    refine hp.flat.resolve_right fun ⟨entries, he⟩ => ?_
    rw [ha] at he
    cases entries with
    | nil => cases he
    | cons entry rest => cases he
  cases hm with
  | shift ha _ _ => exact ⟨⟨rfl, hflat ha, hspan⟩, rfl⟩
  | reduce _ _ h =>
      obtain ⟨children, below, left, next, -, -, -, rfl⟩ := reduced?_spec h
      exact ⟨⟨hp.validating, hp.flat, hspan⟩, rfl⟩
  | breakDown _ _ hv _ =>
      rw [hp.validating] at hv
      cases hv
  | pass ha _ _ _ _ => exact ⟨⟨hp.validating, hflat ha, hspan⟩, rfl⟩
  | span _ haction _ =>
      rw [hwild] at haction
      cases haction
  | reduceSpan haction _ =>
      rw [hwild] at haction
      cases haction
  | descend ha => exact ⟨⟨hp.validating, Or.inl (hnode ha), hspan⟩, rfl⟩
  | reuse hreparse ha _ =>
      rw [hnode ha] at hreparse
      cases hreparse

-- Without reuse a parse does what the leaf parser does.
theorem Plain.machine (hw : setting.table.grammar.toRules.WellFormed)
    (hwild : ∀ pieces reach, setting.lookup? pieces (.wildcard reach) = none)
    (hp : Plain setting scene) (hm : Moves setting scene other) :
    (setting.machine scene).next setting.table = some (setting.machine other) ∨
      setting.machine other = setting.machine scene ∧ other.weight < scene.weight := by
  rcases hm.machine hw hwild hp.isSpan with h | h | ⟨hv, -⟩ | ⟨-, hv⟩
  · exact Or.inl h
  · exact Or.inr h
  · rw [hp.validating] at hv
    cases hv
  · rw [(hp.moves hwild hm).1.validating] at hv
    cases hv

theorem Plain.tracks (hw : setting.table.grammar.toRules.WellFormed)
    (hwild : ∀ pieces reach, setting.lookup? pieces (.wildcard reach) = none) :
    Tracks setting (Plain setting) setting.machine :=
  ⟨fun hp hm => (hp.moves hwild hm).1, fun hp hm => hp.machine hw hwild hm⟩

theorem Plain.reachable (hw : setting.table.grammar.toRules.WellFormed)
    (hwild : ∀ pieces reach, setting.lookup? pieces (.wildcard reach) = none)
    (hp : Plain setting scene) (hr : Reachable setting scene other) :
    Plain setting other ∧ other.brokeDown = scene.brokeDown ∧
      Machine.Steps setting.table (setting.machine scene) (setting.machine other) := by
  obtain ⟨hother, hsteps⟩ := (Plain.tracks hw hwild).reachable hp hr
  refine ⟨hother, ?_, hsteps⟩
  induction hr with
  | refl => rfl
  | tail hr hm ih =>
      obtain ⟨hscene, hbefore⟩ := (Plain.tracks hw hwild).reachable hp hr
      exact (hscene.moves hwild hm).2.trans (ih hscene hbefore)

-- If the leaf parser ends, so does the parse.
theorem Plain.acc (hw : setting.table.grammar.toRules.WellFormed)
    (hwild : ∀ pieces reach, setting.lookup? pieces (.wildcard reach) = none)
    (hacc : Acc (fun after machine => machine.next setting.table = some after) (setting.machine scene))
    (hp : Plain setting scene) : Acc (fun after scene => Moves setting scene after) scene :=
  (Plain.tracks hw hwild).acc hp hacc

end

end IncrementalLR
