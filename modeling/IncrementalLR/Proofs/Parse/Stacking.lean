import IncrementalLR.Proofs.Document.Standing
import IncrementalLR.Proofs.Parse.Halting
import IncrementalLR.Proofs.Parse.Projection

namespace IncrementalLR

-- The label of a token that has been parsed.
def Label.IsParsed (label : Label) : Prop := label.changed = false ∧ label.IsToken

-- Trees in which nothing is flagged, as far as the nodes that are not flagged
-- themselves go. What is below such a node makes it whole.
def Forest.Settled (whole : Symbol → Forest → Prop) : Forest → Prop
  | nil => True
  | leaf _ _ after => after.Settled whole
  | node _ symbol changed below after =>
      (changed = false → whole symbol below) ∧ below.Settled whole ∧ after.Settled whole

theorem Forest.Settled.imp {whole other : Symbol → Forest → Prop} {forest : Forest} (hs : forest.Settled whole)
    (h : ∀ symbol below, whole symbol below → other symbol below) : forest.Settled other := by
  induction forest with
  | nil => trivial
  | leaf id label after ih => exact ih hs
  | node id symbol changed below after ihbelow ih =>
      exact ⟨fun hchanged => h _ _ (hs.1 hchanged), ihbelow hs.2.1, ih hs.2.2⟩

section

variable {whole : Symbol → Forest → Prop} {forest other : Forest} {entries : List (Nat × Label)}

@[simp] theorem Forest.settled_append :
    (forest ++ other).Settled whole ↔ forest.Settled whole ∧ other.Settled whole := by
  induction forest with
  | nil => simp [Forest.Settled]
  | leaf id label after ih => simp [Forest.Settled, ih]
  | node id symbol changed below after _ ih => simp [Forest.Settled, ih, and_assoc]

@[simp] theorem Forest.settled_ofLeaves : (Forest.ofLeaves entries).Settled whole := by
  induction entries with
  | nil => trivial
  | cons entry rest ih => exact ih

end

namespace Setting

variable (setting : Setting)

-- A table of an automaton of the grammar, and nothing to pass through that is a
-- nonterminal.
structure Regular : Prop where
  table : setting.table = .build setting.table.graph setting.table.grammar
  wellFormed : setting.table.grammar.toRules.WellFormed
  faithful : Faithful setting.table.grammar setting.table.graph
  nonterminal : ∀ id, (setting.table.grammar.symbol id).isNonterminal = true →
    setting.passThrough.contains (setting.table.grammar.symbol id).name = false

-- Whether a token may be passed through. Unless that is loose, it stands behind a
-- token, and the grammar does not know it.
def Lets (loose settled : Bool) (label : Label) : Prop :=
  setting.passes label = true ∧ (loose = true ∨ settled = true ∧ setting.idOf? label.key = none)

-- Trees that a sequence of symbols stands for, one for each of the symbols, with
-- tokens between them that were passed through. They may come first if what
-- stands before them is settled, as it is behind a token.
inductive Covers (loose : Bool) : Bool → List Nat → Forest → Prop where
  | nil {settled : Bool} : Covers loose settled [] .nil
  | passed {settled : Bool} {sequence : List Nat} {id : Nat} {label : Label} {after : Forest} :
      label.IsParsed → setting.Lets loose settled label → Covers loose settled sequence after →
      Covers loose settled sequence (.leaf id label after)
  | token {settled : Bool} {terminal : Nat} {sequence : List Nat} {id : Nat} {label : Label}
      {after : Forest} :
      label.IsParsed → setting.idOf? label.key = some terminal →
      terminal ∈ setting.table.grammar.terminals → (loose = true ∨ setting.passes label = false) →
      Covers loose true sequence after → Covers loose settled (terminal :: sequence) (.leaf id label after)
  | span {settled : Bool} {wildcard : Nat} {sequence : List Nat} {entries : List (Nat × Label)}
      {after : Forest} :
      loose = true → (setting.table.grammar.symbol wildcard).isWildcard = true →
      (∀ entry ∈ entries, entry.2.IsParsed) → Covers loose true sequence after →
      Covers loose settled (wildcard :: sequence) (.ofLeaves entries ++ after)
  | node {settled : Bool} {production left id : Nat} {sequence : List Nat} {below after : Forest} :
      (setting.table.grammar.production production).left = some left →
      Covers loose false (setting.table.grammar.production production).right below →
      Covers loose false sequence after →
      Covers loose settled (left :: sequence)
        (.node id (setting.table.grammar.symbol left) false below after)

-- Whether trees make up the node above them.
def Whole (loose : Bool) (symbol : Symbol) (below : Forest) : Prop :=
  ∃ production left, (setting.table.grammar.production production).left = some left ∧
    setting.table.grammar.symbol left = symbol ∧
    Covers setting loose false (setting.table.grammar.production production).right below

-- A stack along the edges of the automaton, with the symbols that it spells from
-- the top to the bottom. It is settled if a token lies on top, or nothing.
inductive Stacks (loose : Bool) : Bool → List Nat → List Piece → Prop where
  | nil : Stacks loose true [] []
  | passed {settled : Bool} {spelled : List Nat} {pieces : List Piece} {id : Nat} {label : Label} :
      label.IsParsed → setting.Lets loose settled label → Stacks loose settled spelled pieces →
      Stacks loose settled spelled (.passed (.leaf id label) (Piece.top pieces) :: pieces)
  | token {settled : Bool} {terminal target : Nat} {spelled : List Nat} {pieces : List Piece} {id : Nat}
      {label : Label} :
      label.IsParsed → setting.idOf? label.key = some terminal →
      terminal ∈ setting.table.grammar.terminals → (loose = true ∨ setting.passes label = false) →
      (terminal, target) ∈ setting.table.graph.edgesFrom (Piece.top pieces) →
      Stacks loose settled spelled pieces →
      Stacks loose true (terminal :: spelled) (.symbol (.leaf id label) target :: pieces)
  | span {settled : Bool} {wildcard target : Nat} {spelled : List Nat} {pieces : List Piece}
      {entries : List (Nat × Label)} :
      loose = true → (setting.table.grammar.symbol wildcard).isWildcard = true →
      (∀ entry ∈ entries, entry.2.IsParsed) →
      (wildcard, target) ∈ setting.table.graph.edgesFrom (Piece.top pieces) →
      Stacks loose settled spelled pieces →
      Stacks loose true (wildcard :: spelled) (.span entries target :: pieces)
  | node {settled : Bool} {production left target id : Nat} {spelled : List Nat} {pieces : List Piece}
      {below : Forest} :
      (setting.table.grammar.production production).left = some left →
      Covers setting loose false (setting.table.grammar.production production).right below →
      (left, target) ∈ setting.table.graph.edgesFrom (Piece.top pieces) →
      Stacks loose settled spelled pieces →
      Stacks loose false (left :: spelled)
        (.symbol (.node id (setting.table.grammar.symbol left) false below) target :: pieces)

variable {setting} {loose settled other : Bool} {sequence spelled : List Nat} {forest taken : Forest}
  {pieces after : List Piece} {symbol : Symbol}

theorem Covers.forest_settled (hc : setting.Covers loose settled sequence forest) :
    forest.Settled (setting.Whole loose) := by
  induction hc with
  | nil => trivial
  | passed _ _ _ ih => exact ih
  | token _ _ _ _ _ ih => exact ih
  | span _ _ _ _ ih => exact Forest.settled_append.mpr ⟨Forest.settled_ofLeaves, ih⟩
  | node hleft hbelow _ ihbelow ih => exact ⟨fun _ => ⟨_, _, hleft, rfl, hbelow⟩, ihbelow, ih⟩

-- What is whole is so for every document, whether all of it is parsed anew or not.
theorem Covers.congr (hc : setting.Covers loose settled sequence forest) {other : Setting}
    (htable : other.table = setting.table) (hpass : other.passThrough = setting.passThrough) :
    other.Covers loose settled sequence forest := by
  obtain ⟨table, passThrough, document, reparse⟩ := other
  obtain rfl := htable
  obtain rfl := hpass
  induction hc with
  | nil => exact .nil
  | passed hp hl _ ih => exact .passed hp hl ih
  | token hp hid ht hpasses _ ih => exact .token hp hid ht hpasses ih
  | span hloose hwild hp _ ih => exact .span hloose hwild hp ih
  | node hleft _ _ ihbelow ih => exact .node hleft ihbelow ih

theorem Whole.reparse {reparse : Bool} {below : Forest} (hw : setting.Whole loose symbol below) :
    Whole { setting with reparse := reparse } loose symbol below := by
  obtain ⟨production, left, hleft, hsymbol, hc⟩ := hw
  exact ⟨production, left, hleft, hsymbol, hc.congr rfl rfl⟩

theorem Stacks.contents_settled (hs : setting.Stacks loose settled spelled pieces) :
    (Piece.contents .nil pieces).Settled (setting.Whole loose) := by
  induction hs with
  | nil => trivial
  | passed _ _ _ ih => exact Forest.settled_append.mpr ⟨ih, trivial⟩
  | token _ _ _ _ _ _ ih => exact Forest.settled_append.mpr ⟨ih, trivial⟩
  | span _ _ _ _ _ ih => exact Forest.settled_append.mpr ⟨ih, Forest.settled_ofLeaves⟩
  | node hleft hbelow _ _ ih =>
      exact Forest.settled_append.mpr ⟨ih, fun _ => ⟨_, _, hleft, rfl, hbelow⟩, hbelow.forest_settled, trivial⟩

namespace Regular

variable (hr : setting.Regular)

include hr

theorem edge_of_shift {target : Nat} (h : setting.lookup? pieces symbol = some (.shift target)) :
    ∃ id, setting.idOf? symbol = some id ∧ (setting.table.grammar.symbol id).isNonterminal = false ∧
      (id, target) ∈ setting.table.graph.edgesFrom (Piece.top pieces) := by
  rw [lookup?_eq] at h
  obtain ⟨id, hid, haction⟩ := Option.bind_eq_some_iff.mp h
  rw [hr.table] at haction
  cases candidate_of_action? haction with
  | shift he hn => exact ⟨id, hid, hn, he⟩

theorem edge_of_goto {target : Nat} (h : setting.lookup? pieces symbol = some (.goto target)) :
    ∃ id, setting.idOf? symbol = some id ∧ (setting.table.grammar.symbol id).isNonterminal = true ∧
      (id, target) ∈ setting.table.graph.edgesFrom (Piece.top pieces) := by
  rw [lookup?_eq] at h
  obtain ⟨id, hid, haction⟩ := Option.bind_eq_some_iff.mp h
  rw [hr.table] at haction
  cases candidate_of_action? haction with
  | goto he hn => exact ⟨id, hid, hn, he⟩

theorem symbol_of_idOf? {id : Nat} (h : setting.idOf? symbol = some id) :
    setting.table.grammar.symbol id = symbol.key :=
  Rules.symbol_of_getElem? (hr.wellFormed.symbolId?_eq_some.mp h)

end Regular

-- What a production finds on a stack: trees that make it up, and below them a state where
-- it begins.
def Pops (setting : Setting) (loose : Bool) (production dot : Nat) (taken : Forest) (spelled : List Nat)
    (pieces : List Piece) : Prop :=
  ∃ children below rest other, Piece.pop taken dot pieces = some (children, below) ∧
    setting.Covers loose false (setting.table.grammar.production production).right children ∧
    setting.Stacks loose other rest below ∧
    (setting.table.graph.state (Piece.top below)).HasItem ⟨production, 0⟩ ∧
    spelled = ((setting.table.grammar.production production).right.take dot).reverse ++ rest

-- The symbol on top of the stack is the one that an item has moved over.
theorem Regular.pops_symbol (hr : setting.Regular) {production dot symbol : Nat} {piece : Piece}
    (hcounts : piece.frame.counts = true)
    (he : (symbol, piece.state) ∈ setting.table.graph.edgesFrom (Piece.top pieces))
    (hi : (setting.table.graph.state piece.state).HasItem ⟨production, dot + 1⟩)
    (hc : ∀ {settled : Bool}, setting.Covers loose settled
      (symbol :: (setting.table.grammar.production production).right.drop (dot + 1)) (piece.forest ++ taken))
    (hp : (setting.table.graph.state (Piece.top pieces)).HasItem ⟨production, dot⟩ →
      setting.Covers loose settled ((setting.table.grammar.production production).right.drop dot)
        (piece.forest ++ taken) →
      (dot = 0 → setting.Covers loose false (setting.table.grammar.production production).right
        (piece.forest ++ taken)) →
      setting.Pops loose production dot (piece.forest ++ taken) spelled pieces) :
    setting.Pops loose production (dot + 1) taken (symbol :: spelled) (piece :: pieces) := by
  obtain ⟨hsource, hn⟩ := hr.faithful.source he hi
  have hdrop : (setting.table.grammar.production production).right.drop dot =
      symbol :: (setting.table.grammar.production production).right.drop (dot + 1) := by
    obtain ⟨hlt, rfl⟩ := List.getElem?_eq_some_iff.mp hn
    exact List.drop_eq_getElem_cons hlt
  have hcovers : ∀ {settled : Bool}, setting.Covers loose settled
      ((setting.table.grammar.production production).right.drop dot) (piece.forest ++ taken) := hdrop ▸ hc
  obtain ⟨children, below, rest, other, hpop, hchildren, hbelow, hbegins, rfl⟩ :=
    hp hsource hcovers fun hzero => by simpa [hzero] using @hcovers false
  refine ⟨children, below, rest, other, ?_, hchildren, hbelow, hbegins, ?_⟩
  · rw [Piece.pop, hcounts, if_pos rfl]
    exact hpop
  · rw [List.take_add_one, hn]
    simp

-- What an item has moved over lies on top of the stack, with trees that make up
-- its production.
theorem Stacks.pop (hr : setting.Regular) (hs : setting.Stacks loose settled spelled pieces)
    {production dot : Nat}
    (hi : (setting.table.graph.state (Piece.top pieces)).HasItem ⟨production, dot⟩)
    (hc : setting.Covers loose settled ((setting.table.grammar.production production).right.drop dot) taken)
    (hfirst : dot = 0 → setting.Covers loose false (setting.table.grammar.production production).right taken) :
    setting.Pops loose production dot taken spelled pieces := by
  induction hs generalizing dot taken with
  | nil =>
      obtain rfl : dot = 0 := hr.faithful.dot_of_start hi
      exact ⟨taken, [], [], true, rfl, hfirst rfl, .nil, hi, rfl⟩
  | @passed settled spelled pieces id label hp hl hs ih =>
      cases dot with
      | zero => exact ⟨taken, _, _, _, rfl, hfirst rfl, .passed hp hl hs, hi, rfl⟩
      | succ dot => exact ih hi (.passed hp hl hc) nofun
  | token hp hid ht hpasses he hs ih =>
      cases dot with
      | zero => exact ⟨taken, _, _, _, rfl, hfirst rfl, .token hp hid ht hpasses he hs, hi, rfl⟩
      | succ dot => exact hr.pops_symbol rfl he hi (.token hp hid ht hpasses hc) ih
  | span hloose hwild hp he hs ih =>
      cases dot with
      | zero => exact ⟨taken, _, _, _, rfl, hfirst rfl, .span hloose hwild hp he hs, hi, rfl⟩
      | succ dot => exact hr.pops_symbol rfl he hi (.span hloose hwild hp hc) ih
  | node hleft hbelow he hs ih =>
      cases dot with
      | zero => exact ⟨taken, _, _, _, rfl, hfirst rfl, .node hleft hbelow he hs, hi, rfl⟩
      | succ dot => exact hr.pops_symbol rfl he hi (.node hleft hbelow hc) ih

section Breakdown

variable {tree : Tree} {id : Nat} {label : Label} {below : Forest}

theorem Stacks.again?_leaf (hr : setting.Regular) (hs : setting.Stacks loose settled spelled pieces)
    (hp : label.IsParsed)
    (hl : loose = true ∨ setting.passes label = false ∨ settled = true ∧ setting.idOf? label.key = none)
    (h : setting.again? (.leaf id label) pieces = some after) :
    ∃ other rest, setting.Stacks loose other rest after ∧ (loose = true ∨ other = true) := by
  unfold again? at h
  split at h
  · rename_i next haction
    obtain rfl := Option.some_inj.mp h
    obtain ⟨terminal, hid, hn, he⟩ := hr.edge_of_shift haction
    refine ⟨true, _, .token hp hid (hr.faithful.terminal_of_edge hr.wellFormed he hn) ?_ he hs, Or.inr rfl⟩
    refine hl.imp_right fun hl => hl.resolve_right fun ⟨_, hnone⟩ => ?_
    exact Option.some_ne_none _ (hid.symm.trans hnone)
  · rename_i next haction
    obtain ⟨nonterminal, hid, hn, -⟩ := hr.edge_of_goto haction
    have hkey : setting.table.grammar.symbol nonterminal = label.key.key := hr.symbol_of_idOf? hid
    obtain ⟨name, hname⟩ := hp.2.key
    rw [hkey, hname] at hn
    cases hn
  · split at h
    · rename_i hpasses
      obtain rfl := Option.some_inj.mp h
      have hl := hl.imp_right fun hl => hl.resolve_left fun hno => by
        cases hno.symm.trans hpasses
      exact ⟨settled, spelled, .passed hp ⟨hpasses, hl⟩ hs, hl.imp_right And.left⟩
    · cases h

theorem Stacks.again?_node (hr : setting.Regular) (hs : setting.Stacks loose settled spelled pieces)
    {production left : Nat}
    (hleft : (setting.table.grammar.production production).left = some left)
    (hc : setting.Covers loose false (setting.table.grammar.production production).right below)
    (h : setting.again? (.node id (setting.table.grammar.symbol left) false below) pieces = some after) :
    setting.Stacks loose false (left :: spelled) after := by
  obtain ⟨hlt, hn⟩ := hr.wellFormed.left_spec hleft
  have hkey : (Tree.node id (setting.table.grammar.symbol left) false below).label.key =
      setting.table.grammar.symbol left := key_of_isNonterminal hn
  have hid := idOf?_symbol hr.wellFormed hlt hn
  unfold again? at h
  rw [hkey] at h
  split at h
  · rename_i next haction
    obtain ⟨other, ho, hterminal, -⟩ := hr.edge_of_shift haction
    rw [hid, Option.some_inj] at ho
    rw [← ho, hn] at hterminal
    cases hterminal
  · rename_i next haction
    obtain rfl := Option.some_inj.mp h
    obtain ⟨other, ho, -, he⟩ := hr.edge_of_goto haction
    rw [hid, Option.some_inj] at ho
    exact .node hleft hc (ho ▸ he) hs
  · have hpasses : setting.passes (Tree.node id (setting.table.grammar.symbol left) false below).label = false := by
      rw [passes, hkey, hr.nonterminal left hn, Bool.or_false]
      cases hsymbol : setting.table.grammar.symbol left with
      | nonterminal name => simp [Tree.label]
      | _ =>
          rw [hsymbol] at hn
          cases hn
    rw [hpasses] at h
    cases h

-- The children of a broken subtree lie on the stack one by one, as long as there
-- are states for them.
theorem Stacks.allAgain? (hr : setting.Regular) (hc : setting.Covers loose settled sequence forest)
    (hs : setting.Stacks loose other spelled pieces) (hle : loose = true ∨ (settled = true → other = true))
    (h : setting.allAgain? forest pieces = some after) :
    ∃ last rest, setting.Stacks loose last rest after := by
  induction hc generalizing other spelled pieces with
  | nil =>
      obtain rfl := Option.some_inj.mp h
      exact ⟨_, _, hs⟩
  | @passed settled sequence id label behind hp hl _ ih =>
      obtain ⟨middle, hfirst, hrest⟩ := Option.bind_eq_some_iff.mp h
      have hother : loose = true ∨ setting.passes label = false ∨
          other = true ∧ setting.idOf? label.key = none := by
        rcases hl.2 with hloose | ⟨hsettled, hnone⟩
        · exact Or.inl hloose
        · exact hle.imp_right fun hle => Or.inr ⟨hle hsettled, hnone⟩
      obtain ⟨next, rest, hnext, htrue⟩ := hs.again?_leaf hr hp hother hfirst
      exact ih hnext (htrue.imp_right fun h _ => h) hrest
  | @token settled terminal sequence id label behind hp _ _ hpasses _ ih =>
      obtain ⟨middle, hfirst, hrest⟩ := Option.bind_eq_some_iff.mp h
      obtain ⟨next, rest, hnext, htrue⟩ := hs.again?_leaf hr hp (hpasses.imp_right Or.inl) hfirst
      exact ih hnext (htrue.imp_right fun h _ => h) hrest
  | @span settled wildcard sequence entries behind hloose _ hp _ ih =>
      clear hle
      induction entries generalizing other spelled pieces with
      | nil => exact ih hs (Or.inl hloose) h
      | cons entry entries ihentries =>
          obtain ⟨middle, hfirst, hrest⟩ := Option.bind_eq_some_iff.mp h
          obtain ⟨next, rest, hnext, -⟩ :=
            hs.again?_leaf hr (hp entry List.mem_cons_self) (Or.inl hloose) hfirst
          exact ihentries (fun entry h => hp entry (List.mem_cons_of_mem _ h)) hnext hrest
  | node hleft hbelow _ _ ih =>
      obtain ⟨middle, hfirst, hrest⟩ := Option.bind_eq_some_iff.mp h
      exact ih (hs.again?_node hr hleft hbelow hfirst) (Or.inr nofun) hrest

-- What is left of a stack whose top has been broken down is a stack again, and
-- settled.
theorem BreaksDown.stack (hr : setting.Regular) (hb : setting.BreaksDown pieces after)
    (hs : setting.Stacks loose settled spelled pieces) :
    ∃ last rest, setting.Stacks loose last rest after ∧ (loose = true ∨ last = true) := by
  induction hb generalizing settled spelled with
  | leaf h =>
      cases hs with
      | token hp _ _ hpasses _ hs => exact hs.again?_leaf hr hp (hpasses.imp_right Or.inl) h
  | node h _ ih =>
      cases hs with
      | node _ hc _ hs =>
          obtain ⟨last, rest, hmiddle⟩ := Stacks.allAgain? hr hc hs (Or.inr nofun) h
          exact ih hmiddle
  | span haction =>
      cases hs with
      | span hloose _ hp _ hs =>
          obtain ⟨wildcard, hid, -, he⟩ := hr.edge_of_shift haction
          have hsymbol := hr.symbol_of_idOf? hid
          exact ⟨true, _, .span hloose (by rw [hsymbol]; rfl) hp he hs, Or.inr rfl⟩
  | passed =>
      cases hs with
      | passed hp hl hs => exact ⟨settled, _, .passed hp hl hs, hl.2.imp_right And.left⟩

end Breakdown

end Setting

end IncrementalLR
