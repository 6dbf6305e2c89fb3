import IncrementalLR.Proofs.Parse.Stacking

namespace IncrementalLR

namespace Setting

-- What the trees on the stack and the trees to come have to be like. To be strict
-- about tokens that are passed through takes a grammar without wildcards that
-- knows none of them.
structure Apt (setting : Setting) (loose : Bool) : Prop extends setting.Regular where
  apart : loose = true ∨ ∀ label id, label.IsToken → setting.idOf? label.key = some id →
    setting.passes label = false
  plain : loose = true ∨ ∀ pieces reach, setting.lookup? pieces (.wildcard reach) = none

-- Whether what comes next is a token of the grammar.
def Meets (setting : Setting) (ahead : Forest) : Prop :=
  ∃ first id, ahead.leaves.head? = some first ∧ setting.idOf? first.2.key = some id

-- What holds of a scene on the way through a document of some tokens. Nodes to
-- come that are not flagged are whole, and the stack is settled where a token
-- may be passed through.
structure Sound (setting : Setting) (loose : Bool) (tokens : List (Nat × Label)) (scene : Scene) : Prop where
  stack : ∃ settled spelled, setting.Stacks loose settled spelled scene.pieces ∧
    (loose = true ∨ (scene.validating = false → settled = true ∨ setting.Meets scene.ahead))
  ahead : scene.ahead.Settled (setting.Whole loose)
  total : ∃ inner, scene.ahead = inner ++ setting.document.closing ∧
    (Piece.contents .nil scene.pieces ++ inner).tokens = tokens

variable {setting : Setting} {loose settled : Bool} {tokens : List (Nat × Label)} {scene other : Scene}
  {spelled : List Nat} {pieces : List Piece}

theorem Stacks.dot_le (hr : setting.Regular) (hs : setting.Stacks loose settled spelled pieces) {item : Item}
    (hi : (setting.table.graph.state (Piece.top pieces)).HasItem item) :
    item.dot ≤ (setting.table.grammar.production item.production).right.length := by
  obtain ⟨production, dot⟩ := item
  cases dot with
  | zero => exact Nat.zero_le _
  | succ dot =>
      induction hs with
      | nil => cases hr.faithful.dot_of_start hi
      | passed _ _ _ ih => exact ih hi
      | token _ _ _ _ he _ _ => exact (List.getElem?_eq_some_iff.mp (hr.faithful.source he hi).2).1
      | span _ _ _ he _ _ => exact (List.getElem?_eq_some_iff.mp (hr.faithful.source he hi).2).1
      | node _ _ he _ _ => exact (List.getElem?_eq_some_iff.mp (hr.faithful.source he hi).2).1

-- The state that has the start item lies below all symbols.
theorem Stacks.bottom (hr : setting.Regular) (hs : setting.Stacks loose settled spelled pieces)
    (hi : (setting.table.graph.state (Piece.top pieces)).HasItem .start) : spelled = [] := by
  have hedge : ∀ {symbol state target : Nat}, (symbol, target) ∈ setting.table.graph.edgesFrom state →
      ¬(setting.table.graph.state target).HasItem .start := by
    intro symbol state target he hi
    cases (hr.faithful.edge_items _ _ _ he _).mp hi with
    | given h =>
        obtain ⟨source, -, -, hstart⟩ := h
        cases congrArg Item.dot hstart
    | brought _ hb =>
        obtain ⟨left, -, hleft, -⟩ := hb
        rw [show Item.start.production = startProduction from rfl, hr.wellFormed.start_left] at hleft
        cases hleft
  induction hs with
  | nil => rfl
  | passed _ _ _ ih => exact ih hi
  | token _ _ _ _ he _ _ => exact absurd hi (hedge he)
  | span _ _ _ he _ _ => exact absurd hi (hedge he)
  | node _ _ he _ _ => exact absurd hi (hedge he)

-- A final item on top has its production on the stack.
theorem Stacks.pop_final (hr : setting.Regular) (hs : setting.Stacks loose settled spelled pieces) {item : Item}
    (hi : (setting.table.graph.state (Piece.top pieces)).HasItem item)
    (hfinal : item.isFinal setting.table.grammar.toRules = true) :
    ∃ children below rest other,
      Piece.pop .nil (setting.table.grammar.production item.production).right.length pieces =
        some (children, below) ∧
      setting.Covers loose false (setting.table.grammar.production item.production).right children ∧
      setting.Stacks loose other rest below ∧
      (setting.table.graph.state (Piece.top below)).HasItem ⟨item.production, 0⟩ ∧
      spelled = (setting.table.grammar.production item.production).right.reverse ++ rest := by
  obtain ⟨production, dot⟩ := item
  have hle : (setting.table.grammar.production production).right.length ≤ dot := by
    simpa [Item.isFinal] using hfinal
  obtain rfl : dot = (setting.table.grammar.production production).right.length :=
    Nat.le_antisymm (hs.dot_le hr hi) hle
  have hcovers : setting.Covers loose settled ((setting.table.grammar.production production).right.drop
      (setting.table.grammar.production production).right.length) .nil := by
    rw [List.drop_length]
    exact .nil
  have hpop := hs.pop hr hi hcovers fun hzero => List.length_eq_zero_iff.mp hzero ▸ .nil
  rwa [Pops, List.take_length] at hpop

-- A reduction takes off the stack what its production stands for.
theorem Stacks.covers_reduced (hr : setting.Regular) (hs : setting.Stacks loose settled spelled scene.pieces)
    {symbol : Symbol} {production : Nat}
    (haction : setting.lookup? scene.pieces symbol = some (.reduce production))
    (h : setting.reduced? production scene = some other) :
    ∃ children below left next settled rest,
      Piece.pop .nil (setting.table.grammar.production production).right.length scene.pieces =
        some (children, below) ∧
      (setting.table.grammar.production production).left = some left ∧
      setting.Covers loose false (setting.table.grammar.production production).right children ∧
      (left, next) ∈ setting.table.graph.edgesFrom (Piece.top below) ∧
      setting.Stacks loose settled rest below ∧
      other = { scene with
        pieces := .symbol (.node scene.size (setting.table.grammar.symbol left) false children) next :: below
        size := scene.size + 1 } := by
  rw [lookup?_eq] at haction
  obtain ⟨id, -, haction⟩ := Option.bind_eq_some_iff.mp haction
  rw [hr.table] at haction
  generalize hreduce : Action.reduce production = action at haction
  cases candidate_of_action? haction with
  | accept => cases hreduce
  | shift => cases hreduce
  | goto => cases hreduce
  | reduce ha hfinal _ =>
      obtain rfl := Action.reduce.inj hreduce
      obtain ⟨children, below, left, next, hpop, hleft, hgoto, rfl⟩ := reduced?_spec h
      obtain ⟨children', below', rest, settled', hpop', hcovers, hbelow, -⟩ := hs.pop_final hr ha.1 hfinal
      obtain ⟨rfl, rfl⟩ := Prod.mk.inj (Option.some_inj.mp (hpop.symm.trans hpop'))
      rw [hr.table] at hgoto
      exact ⟨children, below, left, next, settled', rest, hpop, hleft, hcovers, edge_of_goto? hgoto, hbelow, rfl⟩

-- What a reduction makes of the stack.
theorem Stacks.reduced? (hr : setting.Regular) (hs : setting.Stacks loose settled spelled scene.pieces)
    {symbol : Symbol} {production : Nat}
    (haction : setting.lookup? scene.pieces symbol = some (.reduce production))
    (h : setting.reduced? production scene = some other) :
    ∃ rest, setting.Stacks loose false rest other.pieces := by
  obtain ⟨children, below, left, next, settled, rest, -, hleft, hcovers, he, hbelow, rfl⟩ :=
    hs.covers_reduced hr haction h
  exact ⟨_, .node hleft hcovers he hbelow⟩

-- The tokens to come are those of the document.
theorem Sound.isToken (hs : setting.Sound loose tokens scene)
    (ht : ∀ entry ∈ tokens, entry.2.IsToken) {id : Nat} {label : Label} {after : Forest}
    (ha : scene.ahead = .leaf id label after) (hne : after ≠ .nil) : label.parsed.IsParsed := by
  refine ⟨rfl, ?_⟩
  obtain ⟨inner, hinner, htotal⟩ := hs.total
  rcases @Document.before_of_append_closing _ after (.leaf id label) inner (ha.symm.trans hinner) with
    ⟨-, -, hnil⟩ | ⟨behind, rfl, -⟩
  · exact absurd hnil hne
  · refine ht (id, label.parsed) ?_
    rw [← htotal]
    simp [Forest.tokens, Tree.before, Forest.leaves]

theorem Spans.isParsed {ahead rest : Forest} {taken : List (Nat × Label)} (hs : Spans ahead taken rest)
    {inner : Forest} (hinner : ahead = inner ++ setting.document.closing)
    (ht : ∀ entry ∈ inner.tokens, entry.2.IsToken) : ∀ entry ∈ taken, entry.2.IsParsed := by
  induction hs generalizing inner with
  | done => exact fun _ h => nomatch h
  | @descend id symbol changed below after rest taken _ ih =>
      rcases @Document.before_of_append_closing _ after (.node id symbol changed below) inner hinner with
        ⟨-, h, -⟩ | ⟨behind, rfl, rfl⟩
      · cases h
      · refine ih Forest.append_assoc.symm fun entry h => ht entry ?_
        simpa [Forest.tokens, Tree.before, Forest.leaves] using h
  | @take id label after rest taken hne _ ih =>
      rcases @Document.before_of_append_closing _ after (.leaf id label) inner hinner with
        ⟨-, h, -⟩ | ⟨behind, rfl, rfl⟩
      · obtain ⟨-, rfl⟩ := Tree.leaf.inj h
        exact absurd rfl hne
      · refine List.forall_mem_cons.mpr ⟨⟨rfl, ht (id, label.parsed) ?_⟩, ih rfl fun entry h => ht entry ?_⟩
        · simp [Forest.tokens, Tree.before, Forest.leaves]
        · exact List.mem_cons_of_mem _ h

theorem Spans.settled_rest {whole : Symbol → Forest → Prop} {ahead rest : Forest} {taken : List (Nat × Label)}
    (hs : Spans ahead taken rest) (ha : ahead.Settled whole) : rest.Settled whole := by
  induction hs with
  | done => exact ha
  | descend _ ih => exact ih (Forest.settled_append.mpr ha.2)
  | take _ _ ih => exact ih ha

theorem Sound.total_moves (hs : setting.Sound loose tokens scene) (hm : Moves setting scene other) :
    ∃ inner, other.ahead = inner ++ setting.document.closing ∧
      (Piece.contents .nil other.pieces ++ inner).tokens = tokens := by
  obtain ⟨inner, hinner, htotal⟩ := hs.total
  have hcloses : setting.document.Closes scene := ⟨inner, hinner⟩
  obtain ⟨behind, hbehind⟩ : ∃ behind, other.ahead = behind ++ setting.document.closing := hcloses.moves hm
  have hsame := @Moves.tokens setting .nil scene other hm
  rw [hinner, hbehind, ← Forest.append_assoc, ← Forest.append_assoc, Forest.tokens_append,
    @Forest.tokens_append _ setting.document.closing, List.append_cancel_right_eq, htotal] at hsame
  exact ⟨behind, hbehind, hsame⟩

theorem Sound.stacks_shift (ha : setting.Apt loose) (ht : ∀ entry ∈ tokens, entry.2.IsToken)
    (hs : setting.Sound loose tokens scene) {id next : Nat} {label : Label} {after : Forest}
    (hahead : scene.ahead = .leaf id label after) (hne : after ≠ .nil)
    (haction : setting.lookup? scene.pieces label.key = some (.shift next))
    (hstacks : setting.Stacks loose settled spelled scene.pieces) :
    ∃ rest, setting.Stacks loose true rest (.symbol (.leaf id label.parsed) next :: scene.pieces) := by
  obtain ⟨terminal, hid, hn, he⟩ := ha.edge_of_shift haction
  have hp := hs.isToken ht hahead hne
  refine ⟨_, .token hp hid (ha.faithful.terminal_of_edge ha.wellFormed he hn) ?_ he hstacks⟩
  exact ha.apart.imp_right fun h => h _ _ hp.2 hid

-- What is to come stays whole.
theorem Sound.ahead_moves (hs : setting.Sound loose tokens scene) (hm : Moves setting scene other) :
    other.ahead.Settled (setting.Whole loose) := by
  have hahead := hs.ahead
  cases hm with
  | shift h _ _ =>
      rw [h] at hahead
      exact hahead
  | reduce _ _ h =>
      rw [(tokens_reduced? .nil h).2]
      exact hahead
  | breakDown _ _ _ _ => exact hahead
  | pass h _ _ _ _ =>
      rw [h] at hahead
      exact hahead
  | span _ _ h => exact Spans.settled_rest h hahead
  | reduceSpan _ h =>
      rw [(tokens_reduced? .nil h).2]
      exact hahead
  | descend h =>
      rw [h] at hahead
      exact Forest.settled_append.mpr hahead.2
  | reuse _ h _ =>
      rw [h] at hahead
      exact hahead.2.2

-- A leaf that the grammar knows is not passed through, so the stack is settled before one
-- that is.
theorem Apt.lets_pass (ha : setting.Apt loose) {id : Nat} {label : Label} {after : Forest}
    (hahead : scene.ahead = .leaf id label after) (hp : label.parsed.IsParsed) (hpasses : setting.passes label = true)
    (hvalidating : scene.validating = false)
    (hsettled : loose = true ∨ (scene.validating = false → settled = true ∨ setting.Meets scene.ahead)) :
    setting.Lets loose settled label.parsed := by
  refine ⟨hpasses, ?_⟩
  rcases ha.apart with hloose | hapart
  · exact Or.inl hloose
  · have hnone : setting.idOf? label.key = none := by
      cases hid : setting.idOf? label.key with
      | none => rfl
      | some known => cases (hapart label.parsed known hp.2 hid).symm.trans hpasses
    refine hsettled.imp_right fun hsettled => ⟨(hsettled hvalidating).resolve_right ?_, hnone⟩
    rintro ⟨first, known, hfirst, hknown⟩
    rw [hahead] at hfirst
    obtain rfl := Option.some_inj.mp hfirst
    exact Option.some_ne_none _ (hknown.symm.trans hnone)

theorem Sound.stacks_span (ha : setting.Apt loose) (ht : ∀ entry ∈ tokens, entry.2.IsToken)
    (hs : setting.Sound loose tokens scene) {target : Nat} {reach : Reach} {leaves : List (Nat × Label)} {rest : Forest}
    (haction : setting.lookup? scene.pieces (.wildcard reach) = some (.shift target))
    (h : Spans scene.ahead leaves rest) (hstacks : setting.Stacks loose settled spelled scene.pieces) :
    loose = true ∧ ∃ spelled, setting.Stacks loose true spelled (.span leaves target :: scene.pieces) := by
  rcases ha.plain with hloose | hplain
  · obtain ⟨inner, hinner, htotal⟩ := hs.total
    obtain ⟨wildcard, hid, -, he⟩ := ha.edge_of_shift haction
    have hsymbol := ha.symbol_of_idOf? hid
    refine ⟨hloose, _, .span hloose (by rw [hsymbol]; rfl) (Spans.isParsed h hinner fun entry h => ?_) he hstacks⟩
    exact ht entry (htotal ▸ by simp [h])
  · rw [hplain] at haction
    cases haction

-- Every step keeps to this.
theorem Sound.moves (ha : setting.Apt loose) (ht : ∀ entry ∈ tokens, entry.2.IsToken)
    (hs : setting.Sound loose tokens scene) (hm : Moves setting scene other) :
    setting.Sound loose tokens other := by
  obtain ⟨settled, spelled, hstacks, hsettled⟩ := hs.stack
  refine ⟨?_, hs.ahead_moves hm, hs.total_moves hm⟩
  cases hm with
  | shift hahead hne haction =>
      obtain ⟨rest, hrest⟩ := hs.stacks_shift ha ht hahead hne haction hstacks
      exact ⟨true, rest, hrest, Or.inr fun _ => Or.inl rfl⟩
  | reduce hfirst haction h =>
      obtain ⟨rest, hrest⟩ := hstacks.reduced? ha.toRegular haction h
      obtain ⟨id, hid⟩ := idOf?_of_lookup? haction
      refine ⟨false, rest, hrest, Or.inr fun _ => Or.inr ⟨_, id, ?_, hid⟩⟩
      rw [(tokens_reduced? .nil h).2]
      exact hfirst
  | breakDown _ _ _ hb =>
      obtain ⟨last, rest, hrest, hlast⟩ := hb.stack ha.toRegular hstacks
      exact ⟨last, rest, hrest, hlast.imp_right fun h _ => Or.inl h⟩
  | pass hahead hne _ hvalidating hpasses =>
      have hp := hs.isToken ht hahead hne
      have hlets := ha.lets_pass hahead hp hpasses hvalidating hsettled
      exact ⟨settled, spelled, .passed hp hlets hstacks, hlets.2.imp_right fun h _ => Or.inl h.1⟩
  | span _ haction h =>
      obtain ⟨hloose, rest, hrest⟩ := hs.stacks_span ha ht haction h hstacks
      exact ⟨true, rest, hrest, Or.inl hloose⟩
  | reduceSpan haction h =>
      rcases ha.plain with hloose | hplain
      · obtain ⟨rest, hrest⟩ := hstacks.reduced? ha.toRegular haction h
        exact ⟨false, rest, hrest, Or.inl hloose⟩
      · rw [hplain] at haction
        cases haction
  | descend h =>
      refine ⟨settled, spelled, hstacks, hsettled.imp_right fun hsettled hv => (hsettled hv).imp_right ?_⟩
      rintro ⟨first, id, hfirst, hid⟩
      rw [h] at hfirst
      rw [Forest.leaves] at hfirst
      exact ⟨first, id, by rwa [Forest.leaves_append], hid⟩
  | @reuse id next symbol below after _ hahead haction =>
      have hwhole := hs.ahead
      rw [hahead] at hwhole
      obtain ⟨production, left, hleft, rfl, hcovers⟩ := hwhole.1 rfl
      obtain ⟨hlt, hn⟩ := ha.wellFormed.left_spec hleft
      obtain ⟨other, ho, -, he⟩ := ha.edge_of_goto haction
      rw [idOf?_symbol ha.wellFormed hlt hn, Option.some_inj] at ho
      exact ⟨false, _, .node hleft hcovers (ho ▸ he) hstacks, Or.inr fun h => absurd h Bool.true_eq_false_eq_False⟩

theorem Sound.reachable (ha : setting.Apt loose) (ht : ∀ entry ∈ tokens, entry.2.IsToken)
    (hs : setting.Sound loose tokens scene) (hr : Reachable setting scene other) :
    setting.Sound loose tokens other := by
  induction hr with
  | refl => exact hs
  | tail _ hm ih => exact ih.moves ha ht hm

-- A parse of a document starts so.
theorem sound_scene {store : Store} {forest : Forest} (hf : forest.Settled (setting.Whole loose)) :
    setting.Sound loose forest.tokens (setting.document.scene store forest) := by
  refine ⟨⟨true, [], .nil, Or.inr fun _ => Or.inl rfl⟩, ?_, forest, rfl, rfl⟩
  exact Forest.settled_append.mpr ⟨hf, trivial⟩

-- Where a parse accepts, the stack spells the start symbol and nothing else.
theorem Sound.accepts (ha : setting.Apt loose) (hs : setting.Sound loose tokens scene)
    (haccepts : Accepts setting scene) :
    ∃ settled, setting.Stacks loose settled [setting.table.grammar.start] scene.pieces := by
  obtain ⟨settled, spelled, hstacks, -⟩ := hs.stack
  obtain ⟨id, label, after, -, haction⟩ := haccepts
  rw [lookup?_eq] at haction
  obtain ⟨symbol, -, haction⟩ := Option.bind_eq_some_iff.mp haction
  rw [ha.table] at haction
  generalize haccept : Action.accept = action at haction
  cases candidate_of_action? haction with
  | shift => cases haccept
  | reduce => cases haccept
  | goto => cases haccept
  | accept hi hfinal hstart =>
      obtain ⟨children, below, rest, other, -, -, hbelow, hi', rfl⟩ := hstacks.pop_final ha.toRegular hi hfinal
      rw [hstart] at hi' hstacks
      obtain rfl := hbelow.bottom ha.toRegular hi'
      rw [ha.wellFormed.start_right] at hstacks
      exact ⟨settled, hstacks⟩

-- The rest of what comes behind the content.
theorem Sound.last (hs : setting.Sound loose tokens scene) {tree : Tree}
    (ha : scene.ahead = tree.forest) : scene.ahead = setting.document.closing := by
  obtain ⟨inner, hinner, -⟩ := hs.total
  rcases @Document.before_of_append_closing _ .nil tree inner (ha.symm.trans hinner) with
    ⟨rfl, -, -⟩ | ⟨behind, -, hnil⟩
  · exact hinner
  · have hleaves := congrArg Forest.leaves hnil
    rw [Forest.leaves_append] at hleaves
    exact absurd hleaves.symm (by simp [Document.closing, Forest.leaves])

-- The end of the input is what a parse accepts on.
theorem Sound.ahead_of_accepts (hr : setting.Regular) (ht : ∀ entry ∈ tokens, entry.2.IsToken)
    (hs : setting.Sound loose tokens scene) (haccepts : Accepts setting scene) :
    scene.ahead = setting.document.closing := by
  obtain ⟨id, label, after, hahead, haction⟩ := haccepts
  by_cases hnil : after = .nil
  · subst hnil
    exact @Sound.last _ _ _ _ hs (.leaf id label) hahead
  · obtain ⟨name, hname⟩ := (hs.isToken ht hahead hnil).2.key
    rw [lookup?_eq] at haction
    obtain ⟨symbol, hid, haction⟩ := Option.bind_eq_some_iff.mp haction
    rw [hr.table] at haction
    have hsymbol := hr.symbol_of_idOf? hid
    rw [show label.key = .terminal name from hname] at hsymbol
    generalize haccept : Action.accept = action at haction
    cases candidate_of_action? haction with
    | accept =>
        rw [hr.wellFormed.symbol_finish] at hsymbol
        cases hsymbol
    | shift => cases haccept
    | reduce => cases haccept
    | goto => cases haccept

-- Where no symbol is spelled, all of the stack was passed through.
theorem Stacks.passing (hs : setting.Stacks loose settled [] pieces) :
    ∃ entries, Piece.contents .nil pieces = .ofLeaves entries ∧ ∀ entry ∈ entries,
      entry.2.IsParsed ∧ setting.passes entry.2 = true ∧ (loose = true ∨ setting.idOf? entry.2.key = none) := by
  generalize hn : ([] : List Nat) = spelled at hs
  induction hs with
  | nil => exact ⟨[], rfl, nofun⟩
  | @passed settled spelled pieces id label hp hl _ ih =>
      obtain ⟨entries, hcontents, hentries⟩ := ih hn
      refine ⟨entries ++ [(id, label)], ?_, ?_⟩
      · rw [Piece.contents, hcontents, Forest.ofLeaves_append]
        rfl
      · rw [List.forall_mem_append, List.forall_mem_singleton]
        exact ⟨hentries, hp, hl.1, hl.2.imp_right And.right⟩
  | token => cases hn
  | span => cases hn
  | node => cases hn

-- Once all of a document is parsed, what lies on the stack becomes its content.
theorem Sound.stands (ht : ∀ entry ∈ tokens, entry.2.IsToken) (hs : setting.Sound loose tokens scene)
    (hahead : scene.ahead = setting.document.closing) {run : Run}
    (hshows : Shows setting.document.root setting.document.opening run scene) :
    setting.document.Stands (setting.accept run).store (Piece.contents .nil scene.pieces) ∧
      (Piece.contents .nil scene.pieces).tokens = tokens := by
  obtain ⟨inner, hinner, htotal⟩ := hs.total
  have hnone := congrArg Forest.tokens (hahead.symm.trans hinner)
  rw [Forest.tokens_append, List.self_eq_append_left] at hnone
  rw [Forest.tokens_append, hnone, List.append_nil] at htotal
  exact ⟨(Document.stands_accept hshows hahead (Forest.isToken_tokens.mp (htotal ▸ ht))).1, htotal⟩

-- A node of a nonterminal between tokens that were passed through.
inductive Lone (setting : Setting) (loose : Bool) (left : Nat) : Forest → Prop where
  | intro {production id : Nat} {before behind : List (Nat × Label)} {below : Forest} :
      (setting.table.grammar.production production).left = some left →
      setting.Covers loose false (setting.table.grammar.production production).right below →
      (∀ entry ∈ before, entry.2.IsParsed ∧ setting.passes entry.2 = true ∧
        (loose = true ∨ setting.idOf? entry.2.key = none)) →
      (∀ entry ∈ behind, entry.2.IsParsed ∧ setting.passes entry.2 = true) →
      (loose = true ∨ behind = []) →
      Lone setting loose left
        (.ofLeaves before ++ .node id (setting.table.grammar.symbol left) false below (.ofLeaves behind))

theorem Lone.congr {left : Nat} {content : Forest} (hl : setting.Lone loose left content) {second : Setting}
    (htable : second.table = setting.table) (hpass : second.passThrough = setting.passThrough) :
    second.Lone loose left content := by
  obtain ⟨table, passThrough, document, reparse⟩ := second
  obtain rfl := htable
  obtain rfl := hpass
  obtain ⟨hleft, hcovers, hbefore, hbehind, hsettled⟩ := hl
  exact .intro hleft (hcovers.congr rfl rfl) hbefore hbehind hsettled

-- Where one nonterminal is spelled, the stack is its node, and not settled unless
-- that is loose.
theorem Stacks.lone {left : Nat} (hs : setting.Stacks loose settled [left] pieces)
    (hn : (setting.table.grammar.symbol left).isNonterminal = true) :
    (loose = true ∨ settled = false) ∧ setting.Lone loose left (Piece.contents .nil pieces) := by
  generalize hl : [left] = spelled at hs
  induction hs with
  | nil => cases hl
  | @passed settled spelled pieces id label hp hlets _ ih =>
      obtain ⟨hsettled, hlone⟩ := ih hl
      have hloose : loose = true := by
        rcases hlets.2 with hloose | ⟨htrue, -⟩
        · exact hloose
        · exact hsettled.resolve_right fun hfalse => by cases htrue.symm.trans hfalse
      refine ⟨Or.inl hloose, ?_⟩
      rw [Piece.contents]
      generalize Piece.contents .nil pieces = contents at hlone
      cases hlone with
      | @intro production node before behind below hleft hcovers hbefore hbehind _ =>
          have hall : ∀ entry ∈ behind ++ [(id, label)], entry.2.IsParsed ∧ setting.passes entry.2 = true :=
            List.forall_mem_append.mpr ⟨hbehind, List.forall_mem_singleton.mpr ⟨hp, hlets.1⟩⟩
          have hlone := @Lone.intro _ _ _ _ node _ _ _ hleft hcovers hbefore hall (Or.inl hloose)
          rw [Forest.ofLeaves_append, ← Forest.node_append, ← Forest.append_assoc] at hlone
          exact hlone
  | token _ _ ht _ _ _ _ =>
      cases hl
      have hterminal := (Rules.mem_terminals.mp ht).2.1
      rw [Symbol.isTerminal, hn] at hterminal
      cases hterminal
  | span _ hwild _ _ _ _ =>
      cases hl
      cases hsymbol : setting.table.grammar.symbol left with
      | wildcard reach =>
          rw [hsymbol] at hn
          cases hn
      | _ =>
          rw [hsymbol] at hwild
          cases hwild
  | node hleft hcovers _ hs _ =>
      cases hl
      obtain ⟨entries, hcontents, hentries⟩ := hs.passing
      rw [Piece.contents, hcontents]
      exact ⟨Or.inr rfl, @Lone.intro _ _ _ _ _ _ [] _ hleft hcovers hentries (List.forall_mem_nil _) (Or.inr rfl)⟩

end Setting

end IncrementalLR
