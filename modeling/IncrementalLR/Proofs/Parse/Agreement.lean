import IncrementalLR.Proofs.Parse.Acceptance
import IncrementalLR.Proofs.Parse.Soundness

namespace IncrementalLR

namespace Setting

-- Tokens are either known to the grammar or passed through, and the end of the input
-- is not passed through. There may be conflicts.
structure Strict (setting : Setting) : Prop extends setting.Apt false where
  closing : setting.passes Document.eosLabel = false

-- A table without conflicts, for tokens that are either known to the grammar or
-- passed through. The end of the input is not passed through.
structure Exact (setting : Setting) : Prop extends setting.Apt false where
  free : ConflictFree setting.table.grammar setting.table.graph
  closing : setting.passes Document.eosLabel = false

-- The leaves of trees as a parser sees them that works on leaves alone.
def leaves (setting : Setting) (forest : Forest) : List Leaf :=
  forest.leaves.map fun entry => setting.leaf entry.2

variable {setting : Setting} {settled : Bool} {sequence spelled : List Nat} {forest other : Forest}
  {pieces : List Piece} {tokens : List (Nat × Label)} {scene after : Scene} {leaf : Leaf} {terminal : Nat}

@[simp] theorem leaves_append : setting.leaves (forest ++ other) = setting.leaves forest ++ setting.leaves other := by
  simp [leaves]

@[simp] theorem leaves_leaf {id : Nat} {label : Label} :
    setting.leaves (.leaf id label forest) = setting.leaf label :: setting.leaves forest := rfl

@[simp] theorem leaves_node {id : Nat} {symbol : Symbol} {changed : Bool} :
    setting.leaves (.node id symbol changed forest other) = setting.leaves forest ++ setting.leaves other := by
  simp [leaves, Forest.leaves]

@[simp] theorem leaves_ofLeaves {entries : List (Nat × Label)} :
    setting.leaves (.ofLeaves entries) = entries.map fun entry => setting.leaf entry.2 := by
  simp [leaves]

theorem passes_of_isToken {label : Label} (ht : label.IsToken) :
    setting.passes label = setting.passThrough.contains label.key.name := by
  have hne : label.symbol ≠ .epsilon := by
    rcases ht with ⟨name, h⟩ | ⟨name, h⟩
    · simp [h]
    · simp [h]
  rw [passes, beq_eq_false_iff_ne.mpr hne, Bool.false_or]

-- Trees that stand for symbols are derived from them.
theorem Covers.derives (hc : setting.Covers false settled sequence forest) :
    ∃ behind rest, forest = .ofLeaves behind ++ rest ∧ (settled = false → behind = []) ∧
      (∀ entry ∈ behind, (setting.leaf entry.2).Passed) ∧
      Derives setting.table.grammar.toRules Leaf.Passed sequence (setting.leaves rest) rest.snapshots := by
  induction hc with
  | nil => exact ⟨[], .nil, rfl, fun _ => rfl, nofun, .nil⟩
  | @passed settled sequence id label after hp hl _ ih =>
      obtain ⟨behind, rest, rfl, -, hpassed, hd⟩ := ih
      obtain ⟨hsettled, hnone⟩ := hl.2.resolve_left Bool.false_ne_true
      refine ⟨(id, label) :: behind, rest, rfl, ?_, List.forall_mem_cons.mpr ⟨⟨hl.1, hnone⟩, hpassed⟩, hd⟩
      rw [hsettled]
      nofun
  | @token settled terminal sequence id label after hp hid ht _ _ ih =>
      obtain ⟨behind, rest, rfl, -, hpassed, hd⟩ := ih
      refine ⟨[], _, rfl, fun _ => rfl, nofun, ?_⟩
      have hbehind : ∀ leaf ∈ behind.map (fun entry => setting.leaf entry.2), leaf.Passed := by
        intro leaf h
        obtain ⟨entry, hmem, rfl⟩ := List.mem_map.mp h
        exact hpassed entry hmem
      have hleaf := @Derives.leaf _ _ _ _ (setting.leaf label) _ _ _ hid ht hbehind hd
      simpa [Forest.snapshots, Forest.snapshots_ofLeaves, Setting.leaf, Function.comp_def] using hleaf
  | span hloose => cases hloose
  | @node settled production left id sequence below after hleft _ _ ihbelow ih =>
      obtain ⟨behind, rest, rfl, hnil, -, hd⟩ := ihbelow
      obtain ⟨behind', rest', rfl, hnil', -, hd'⟩ := ih
      obtain rfl := hnil rfl
      obtain rfl := hnil' rfl
      refine ⟨[], _, rfl, fun _ => rfl, nofun, ?_⟩
      have hnode := Derives.node hleft hd hd'
      simpa [Forest.snapshots, Forest.ofLeaves] using hnode

theorem Covers.derives_right (hc : setting.Covers false false sequence forest) :
    Derives setting.table.grammar.toRules Leaf.Passed sequence (setting.leaves forest) forest.snapshots := by
  obtain ⟨behind, rest, rfl, hnil, -, hd⟩ := hc.derives
  obtain rfl := hnil rfl
  exact hd

theorem slot_token {id target terminal : Nat} {label : Label} (hid : setting.idOf? label.key = some terminal) :
    setting.slot (.symbol (.leaf id label) target) = ⟨target, some terminal, (setting.leaf label).copy⟩ := by
  rw [slot, show setting.idOf? (Tree.leaf id label).label.key = some terminal from hid]
  rfl

theorem slot_node (hr : setting.Regular) {production left id target : Nat} {below : Forest}
    (hleft : (setting.table.grammar.production production).left = some left) :
    setting.slot (.symbol (.node id (setting.table.grammar.symbol left) false below) target) =
      ⟨target, some left, .node (setting.table.grammar.symbol left) "" below.snapshots⟩ := by
  obtain ⟨hlt, hn⟩ := hr.wellFormed.left_spec hleft
  rw [slot, show (Tree.node id (setting.table.grammar.symbol left) false below).label.key =
    setting.table.grammar.symbol left from key_of_isNonterminal hn, idOf?_symbol hr.wellFormed hlt hn]
  rfl

theorem Stacks.path (hr : setting.Regular) (hs : setting.Stacks false settled spelled pieces) :
    Path setting.table.graph spelled (pieces.map setting.slot) := by
  induction hs with
  | nil => exact .nil
  | passed _ _ _ ih =>
      rw [List.map_cons, slot, ← top_slots]
      exact .passed ih
  | token _ hid _ _ he _ ih =>
      rw [← top_slots] at he
      rw [List.map_cons, slot_token hid]
      exact .symbol ih he
  | span hloose => cases hloose
  | node hleft _ he _ ih =>
      rw [← top_slots] at he
      rw [List.map_cons, slot_node hr hleft]
      exact .symbol ih he

-- What begins behind an item began behind the symbol that led to its state.
theorem Regular.begins_source (hr : setting.Regular) {symbol state target : Nat} {item : Item}
    (he : (symbol, target) ∈ setting.table.graph.edgesFrom state)
    (hi : (setting.table.graph.state target).HasItem item)
    (hb : Begins setting.table.grammar.toRules
      ((setting.table.grammar.production item.production).right.drop item.dot) terminal) :
    ∃ source, (setting.table.graph.state state).HasItem source ∧
      source.next? setting.table.grammar.toRules = some symbol ∧
      Begins setting.table.grammar.toRules (source.remaining setting.table.grammar.toRules) terminal := by
  replace hi := (hr.faithful.edge_items _ _ _ he _).mp hi
  induction hi with
  | given h =>
      obtain ⟨source, hsource, hn, rfl⟩ := h
      exact ⟨source, hsource, hn, hb⟩
  | @brought source other _ hbrings ih =>
      obtain ⟨left, hn, hleft, hzero⟩ := hbrings
      refine ih ?_
      rw [Item.next?_eq_some hn]
      rw [hzero, List.drop_zero] at hb
      exact .inside hleft hb

end Setting

-- One symbol with one tree takes one slot.
theorem Piled.single {graph : StateGraph} {stack slots : List Slot} {symbol : Nat} {copy : Snapshot}
    (hp : Piled graph stack [symbol] slots) (hcopies : (slots.map Slot.copy).reverse = [copy]) :
    ∃ target, (symbol, target) ∈ graph.edgesFrom (Slot.top stack) ∧ slots = [⟨target, some symbol, copy⟩] := by
  generalize hs : [symbol] = sequence at hp
  cases hp with
  | nil => cases hs
  | @symbol before slots last target other hp he =>
      obtain ⟨rfl, rfl⟩ : before = [] ∧ last = symbol := by
        cases before with
        | nil => simpa using hs.symm
        | cons first rest => simp at hs
      cases slots with
      | nil =>
          simp only [List.map_cons, List.map_nil, List.reverse_cons, List.reverse_nil, List.nil_append,
            List.cons.injEq, and_true] at hcopies
          exact ⟨target, he, by rw [hcopies]⟩
      | cons slot rest =>
          have hlength := congrArg List.length hcopies
          simp at hlength
  | passed _ hne =>
      have hlength := congrArg List.length hcopies
      simp at hlength
      exact absurd hlength hne

namespace Setting

variable {setting : Setting} {settled : Bool} {sequence spelled : List Nat} {forest other : Forest}
  {pieces : List Piece} {tokens : List (Nat × Label)} {scene after : Scene} {leaf : Leaf} {terminal : Nat}

-- The leaf parser comes to every settled stack, whatever leaf comes next. It comes to
-- the others where the next leaf may follow on the symbol on top.
theorem Stacks.steps (he : setting.Exact) (hs : setting.Stacks false settled spelled pieces) {more : List Leaf}
    (hnext : settled = true ∨ ∃ item terminal,
      (setting.table.graph.state (Piece.top pieces)).HasItem item ∧ leaf.symbol = some terminal ∧
      Begins setting.table.grammar.toRules
        ((setting.table.grammar.production item.production).right.drop item.dot) terminal) :
    Machine.Steps setting.table ⟨[], setting.leaves (Piece.contents .nil pieces) ++ leaf :: more⟩
      ⟨pieces.map setting.slot, leaf :: more⟩ := by
  induction hs generalizing leaf more with
  | nil => exact .refl
  | @passed settled spelled pieces id label hp hl _ ih =>
      obtain ⟨hpasses, hl⟩ := hl
      obtain ⟨hsettled, hnone⟩ := hl.resolve_left Bool.false_ne_true
      have hsteps := @ih (setting.leaf label) (leaf :: more) (Or.inl hsettled)
      rw [Piece.contents, leaves_append, List.append_assoc]
      refine hsteps.tail ?_
      have haction : Machine.action? setting.table (pieces.map setting.slot) (setting.leaf label) = none := by
        rw [Machine.action?, show (setting.leaf label).symbol = none from hnone, Option.bind_none]
      simp only [Machine.next, haction]
      simp [Setting.leaf, hpasses, slot, Tree.snapshot, top_slots]
  | @token settled terminal target spelled pieces id label hp hid ht _ hedge _ ih =>
      obtain ⟨item, hi, hn⟩ := he.faithful.edge_next _ _ _ hedge
      have hsteps := @ih (setting.leaf label) (leaf :: more)
        (Or.inr ⟨item, terminal, hi, hid, Item.next?_eq_some hn ▸ .here ht⟩)
      rw [Piece.contents, leaves_append, List.append_assoc]
      rw [← top_slots] at hedge
      have hshift := @Deterministic.steps_shift _ _ he.free.deterministic _ (setting.leaf label) (leaf :: more) _ _ hid ht
        hedge (Or.inl he.free.finish)
      rw [← he.table] at hshift
      rw [List.map_cons, slot_token hid]
      exact hsteps.trans hshift
  | span hloose => cases hloose
  | @node settled production left target id spelled pieces below hleft hbelow hedge hs ih =>
      obtain ⟨item, terminal, hi, hsymbol, hbegins⟩ := hnext.resolve_left Bool.false_ne_true
      obtain ⟨source, hsource, hn, hrest⟩ := he.begins_source hedge hi hbegins
      have hd := Derives.node hleft hbelow.derives_right .nil
      rw [List.append_nil] at hd
      have hright := Item.next?_eq_some hn
      -- the leaf that decides on what comes before the node
      obtain ⟨first, others, symbol, hfirst, hknown, hbefore⟩ : ∃ first others symbol,
          setting.leaves below ++ leaf :: more = first :: others ∧ first.symbol = some symbol ∧
            Begins setting.table.grammar.toRules (left :: source.remaining setting.table.grammar.toRules)
              symbol := by
        rcases hd.head with ⟨hnil, hv⟩ | ⟨first, others, symbol, hcons, hknown, hb⟩
        · exact ⟨leaf, more, terminal, by rw [hnil]; rfl, hsymbol, hv.begins_append hrest⟩
        · exact ⟨first, others ++ leaf :: more, symbol, by rw [hcons]; rfl, hknown, hb.append _⟩
      have hbelowsteps := @ih first others (Or.inr ⟨source, symbol, hsource, hknown, hright ▸ hbefore⟩)
      rw [← top_slots] at hsource hedge
      obtain ⟨slots, hpiled, hcopies, hsteps⟩ := @Deterministic.steps_derives _ _ he.free.deterministic _ _ _ hd _
        source _ leaf more terminal hsource hright hsymbol (Or.inl hrest) (Or.inl he.free.finish)
      obtain ⟨next, hnext, rfl⟩ := hpiled.single hcopies
      obtain rfl := Construction.target_unique (he.faithful.edges_sorted _) hnext hedge
      have hleaves : setting.leaves (Piece.contents .nil
          (.symbol (.node id (setting.table.grammar.symbol left) false below) next :: pieces)) =
          setting.leaves (Piece.contents .nil pieces) ++ setting.leaves below := by
        rw [Piece.contents, leaves_append]
        exact congrArg _ (leaves_node.trans (List.append_nil _))
      rw [hleaves, List.append_assoc, hfirst, List.map_cons, slot_node he.toRegular hleft]
      rw [hfirst, ← he.table] at hsteps
      exact hbelowsteps.trans hsteps

end Setting

end IncrementalLR
