import IncrementalLR.Proofs.Automaton.Merging
import IncrementalLR.Proofs.Document.Fresh
import IncrementalLR.Proofs.Parse.Conclusion

namespace IncrementalLR

section

variable {setting : Setting} {scene : Scene} {last : Machine}

-- A parse does not reject where the leaf parser is on the way to accepting.
theorem Plain.not_rejects (hp : Plain setting scene)
    (hs : Machine.Steps setting.table (setting.machine scene) last)
    (ha : Machine.Accepts setting.table last) : ¬Rejects setting scene := by
  rintro ⟨id, label, after, hahead, hsilent, hpasses⟩
  rw [hp.validating] at hpasses
  obtain ⟨hhalts, hnot⟩ := halts_of_silent hahead hsilent (hpasses.resolve_left Bool.false_ne_true)
  exact hnot (hs.eq_of_halted hhalts ▸ ha)

-- Nor does it meet a fault there.
theorem Plain.not_fails (hw : setting.table.grammar.toRules.WellFormed)
    (hwild : ∀ pieces reach, setting.lookup? pieces (.wildcard reach) = none) (hp : Plain setting scene)
    (hcloses : setting.document.Closes scene) (hs : Machine.Steps setting.table (setting.machine scene) last)
    (ha : Machine.Accepts setting.table last) : ¬Fails setting scene := by
  -- the last leaf is accepted on, so that nothing takes it
  have hstays : ∀ {slots : List Slot}, (setting.machine scene).next setting.table ≠ some ⟨slots, []⟩ := by
    intro slots hnext
    have hrest := hs.to_last (.single hnext) ha.next
    obtain rfl := hrest.eq_of_halted rfl
    obtain ⟨first, rest, hnil, -⟩ := ha
    cases hnil
  have hmachine : ∀ {id : Nat} {label : Label}, scene.ahead = .leaf id label .nil →
      (setting.machine scene).leaves = [setting.leaf label] := by
    intro id label hahead
    rw [Setting.machine, hahead]
    rfl
  have haction : ∀ {label : Label}, Machine.action? setting.table (setting.machine scene).slots
      (setting.leaf label) = setting.lookup? scene.pieces label.key := action?_machine
  intro hf
  cases hf with
  | @shift id next label hahead h =>
      have hnext : (setting.machine scene).next setting.table = some ⟨⟨next, (setting.leaf label).symbol,
          (setting.leaf label).copy⟩ :: (setting.machine scene).slots, []⟩ := by
        rw [Machine.next, hmachine hahead]
        simp only [haction, h]
      exact hstays hnext
  | @pass id label hahead hpasses hsilent =>
      have hleaf : (setting.leaf label).passes = true := hpasses
      have hnext : (setting.machine scene).next setting.table =
          some ⟨⟨Slot.top (setting.machine scene).slots, none, (setting.leaf label).copy⟩ ::
            (setting.machine scene).slots, []⟩ := by
        rw [Machine.next, hmachine hahead]
        rcases hsilent with h | ⟨target, h⟩
        · simp [haction, h, hleaf]
        · simp [haction, h, hleaf]
      exact hstays hnext
  | @node id symbol changed below hahead =>
      obtain ⟨inner, hinner⟩ := hcloses
      rcases @Document.before_of_append_closing _ .nil (.node id symbol changed below) inner
        (hahead.symm.trans hinner) with ⟨-, h, -⟩ | ⟨behind, -, hnil⟩
      · cases h
      · have hleaves := congrArg Forest.leaves hnil
        rw [Forest.leaves_append] at hleaves
        exact absurd hleaves.symm (by simp [Document.closing, Forest.leaves])
  | @reduce first production hfirst h hnone =>
      obtain ⟨rest, hrest⟩ := machine_leaves hfirst
      have hreduce := reduce_machine hw hp.isSpan production
      rw [hnone] at hreduce
      have hhalts : (setting.machine scene).next setting.table = none := by
        rw [Machine.next, hrest]
        simp only [haction, h]
        rw [show (setting.machine scene).slots = scene.pieces.map setting.slot from rfl, hreduce]
        rfl
      obtain rfl := hs.eq_of_halted hhalts
      obtain ⟨other, others, hother, haccept⟩ := ha
      rw [hrest] at hother
      obtain ⟨rfl, -⟩ := List.cons.inj hother
      rw [haction, h] at haccept
      cases haccept
  | span h _ | reduceSpan h _ =>
      rw [hwild] at h
      cases h

end

-- What lies on a stack without spans is copied slot by slot.
theorem Setting.snapshots_contents {setting : Setting} {pieces : List Piece}
    (hspan : ∀ piece ∈ pieces, piece.isSpan = false) :
    (Piece.contents .nil pieces).snapshots = ((pieces.map setting.slot).map Slot.copy).reverse := by
  induction pieces with
  | nil => rfl
  | cons piece below ih =>
      rw [Piece.contents, Forest.snapshots_append, ih fun other h => hspan other (List.mem_cons_of_mem _ h)]
      cases piece with
      | symbol tree state => simp [Piece.forest, Setting.slot]
      | span leaves state => cases hspan _ List.mem_cons_self
      | passed tree state => simp [Piece.forest, Setting.slot]

section

variable {setting : Setting} {store : Store} {forest : Forest} {tree : Snapshot}

-- A parse of a document that can go on only so far ends.
theorem attempt_of_acc (hwild : ∀ pieces reach, setting.lookup? pieces (.wildcard reach) = none)
    (hg : setting.table.grammar.toRules.WellFormed)
    (hstands : setting.document.Stands store forest)
    (hacc : Acc (fun after scene => Moves setting scene after) (setting.document.scene store forest))
    (metrics : Metrics) :
    ∃ least run outcome, (∀ fuel, least ≤ fuel → setting.attempt fuel store metrics = some (
        match outcome with
        | .ok .accepted => (run.store, run.metrics, outcome)
        | _ => (Setting.rollback store.size run, run.metrics, outcome))) ∧
      Concludes setting setting.document.root setting.document.opening (setting.document.scene store forest)
        (run, outcome) := by
  obtain ⟨first, hnext, hfirst⟩ := Document.exists_following_of_framed hstands.toPlanted
  have hlength : (forest ++ setting.document.closing).ids.length ≤ store.size := by
    have h := Store.length_le_size hstands.nodup hstands.lt_size
    rw [Document.whole, Forest.ids_append] at h
    rw [Forest.ids_append] at h ⊢
    simp only [List.length_cons, List.length_append] at h ⊢
    omega
  have hbudget : 1 + (setting.document.scene store forest).weight ≤
      (setting.document.scene store forest).size + (15 * store.size + 1024) := by
    have hweight : (setting.document.scene store forest).weight =
        2 * (forest ++ setting.document.closing).ids.length := rfl
    have hsize : (setting.document.scene store forest).size = store.size := rfl
    omega
  obtain ⟨least, ⟨run, outcome⟩, hdrive, hconcludes⟩ :=
    @drive_of_acc setting _ _ _ _ 1 first hwild hg hacc
      (hstands.shows { metrics with attempts := metrics.attempts + 1 }) hfirst (15 * store.size + 1024)
      (Nat.le_refl _) hbudget
  refine ⟨least, run, outcome, fun fuel hfuel => ?_, hconcludes⟩
  unfold Setting.attempt
  simp only [hnext]
  exact congrArg (Option.map _) (hdrive fuel hfuel)

-- Nothing is reused of a document without trees.
theorem plain_scene (store : Store) (hflat : setting.reparse = true ∨ ∃ entries, forest = .ofLeaves entries) :
    Plain setting (setting.document.scene store forest) := by
  refine ⟨rfl, hflat.imp_right ?_, List.forall_mem_nil _⟩
  rintro ⟨entries, rfl⟩
  exact ⟨entries ++ [(setting.document.eos, Document.eosLabel)],
    (@Forest.ofLeaves_append entries [(setting.document.eos, Document.eosLabel)]).symm⟩

-- A parse that reuses nothing accepts where the leaf parser does, with what that has on
-- its stack as its result.
theorem attempt_of_steps (hw : setting.table.grammar.toRules.WellFormed)
    (hplain : ∀ pieces reach, setting.lookup? pieces (.wildcard reach) = none)
    (hstands : setting.document.Stands store forest)
    (hflat : setting.reparse = true ∨ ∃ entries, forest = .ofLeaves entries) {slots : List Slot}
    (hsteps : Machine.Steps setting.table ⟨[], setting.leaves forest ++ [setting.leaf Document.eosLabel]⟩
      ⟨slots, [setting.leaf Document.eosLabel]⟩)
    (haccepts : Machine.Accepts setting.table ⟨slots, [setting.leaf Document.eosLabel]⟩) (metrics : Metrics) :
    ∃ least after metrics' content, (∀ fuel, least ≤ fuel →
        setting.attempt fuel store metrics = some (after, metrics', .ok .accepted)) ∧
      setting.document.Stands after content ∧ content.snapshots = (slots.map Slot.copy).reverse := by
  have hp := plain_scene store hflat
  have hinput : setting.machine (setting.document.scene store forest) =
      ⟨[], setting.leaves forest ++ [setting.leaf Document.eosLabel]⟩ :=
    congrArg (Machine.mk []) Setting.leaves_append
  rw [← hinput] at hsteps
  have hacc := hp.acc hw hplain (hsteps.acc haccepts.next)
  obtain ⟨least, run, outcome, hattempt, hconcludes⟩ := attempt_of_acc hplain hw hstands hacc metrics
  obtain ⟨rfl, content, hcontent, hsnapshots⟩ : outcome = .ok .accepted ∧ ∃ content,
      setting.document.Stands run.store content ∧ content.snapshots = (slots.map Slot.copy).reverse := by
    generalize hpair : (run, outcome) = result at hconcludes
    have hreach : ∀ {other}, Reachable setting (setting.document.scene store forest) other →
        Plain setting other ∧ setting.document.Closes other ∧
          Machine.Steps setting.table (setting.machine other)
            ⟨slots, [setting.leaf Document.eosLabel]⟩ := by
      intro other hr
      obtain ⟨hplain', -, hmachine⟩ := hp.reachable hw hplain hr
      exact ⟨hplain', Document.closes_scene.reachable hr, hsteps.to_last hmachine haccepts.next⟩
    cases hconcludes with
    | @accepted run' other hr ha hshows =>
        obtain ⟨hother, hcloses, hrest⟩ := hreach hr
        obtain ⟨id, label, after, hahead, haction⟩ := ha
        have hleaves : (setting.machine other).leaves = setting.leaf label :: setting.leaves after := by
          rw [Setting.machine, hahead]
          rfl
        have hhalts : (setting.machine other).next setting.table = none :=
          Machine.Accepts.next ⟨_, _, hleaves, action?_machine.trans haction⟩
        have hlast := hrest.eq_of_halted hhalts
        have hlength := congrArg (fun machine => machine.leaves.length) hlast
        simp only [Setting.machine, List.length_map, List.length_singleton] at hlength
        have hclosing := hcloses.ahead_of_leaves hlength ⟨id, label, after, hahead⟩
        have htokens := @Reachable.tokens setting .nil _ _ hr
        rw [hclosing, show (setting.document.scene store forest).ahead = forest ++ setting.document.closing from rfl,
          Forest.tokens_append, Forest.tokens_append, Forest.tokens_append, ← List.append_assoc,
          List.append_cancel_right_eq] at htokens
        replace htokens : ∀ entry ∈ (Piece.contents .nil other.pieces).leaves, entry.2.IsToken := by
          rw [← Forest.isToken_tokens, htokens]
          exact Forest.isToken_tokens.mpr hstands.tokens
        obtain ⟨hcontent, -, -⟩ := Document.stands_accept hshows hclosing htokens
        obtain ⟨rfl, rfl⟩ := Prod.mk.inj hpair
        refine ⟨rfl, _, hcontent, ?_⟩
        rw [Setting.snapshots_contents hother.isSpan, show other.pieces.map setting.slot = slots from
          congrArg Machine.slots hlast]
    | rejected hr hrejects _ =>
        obtain ⟨hother, -, hrest⟩ := hreach hr
        exact absurd hrejects (hother.not_rejects hrest haccepts)
    | failed hr hfails =>
        obtain ⟨hother, hcloses, hrest⟩ := hreach hr
        exact absurd hfails (hother.not_fails hw hplain hcloses hrest haccepts)
  exact ⟨least, run.store, run.metrics, content, hattempt, hcontent, hsnapshots⟩

-- So it accepts what has the tokens of a tree for the start symbol, with that tree.
theorem attempt_of_lone (hc : Deterministic setting.table.grammar setting.table.graph)
    (htable : setting.table = .build setting.table.graph setting.table.grammar)
    (hstands : setting.document.Stands store forest)
    (hflat : setting.reparse = true ∨ ∃ entries, forest = .ofLeaves entries) {content : Forest}
    (hl : setting.Lone false setting.table.grammar.start content)
    (htokens : content.tokens.map Prod.snd = forest.tokens.map Prod.snd) (metrics : Metrics) :
    ∃ least after metrics' parsed, (∀ fuel, least ≤ fuel →
        setting.attempt fuel store metrics = some (after, metrics', .ok .accepted)) ∧
      setting.document.Stands after parsed ∧ parsed.snapshots = content.snapshots := by
  have hinput : setting.leaves content = setting.leaves forest := by
    have hmap := congrArg (List.map setting.leaf) htokens
    rw [List.map_map, List.map_map] at hmap
    rw [Setting.leaves_eq_tokens, Setting.leaves_eq_tokens]
    exact hmap
  have hfinish : ∀ leaf ∈ setting.leaves content, leaf.symbol ≠ some finishId := by
    intro leaf h
    rw [hinput, Setting.leaves_eq_tokens] at h
    obtain ⟨entry, hentry, rfl⟩ := List.mem_map.mp h
    exact Setting.leaf_ne_finish hc.wellFormed (Forest.isToken_tokens.mpr hstands.tokens entry hentry)
  obtain ⟨slots, hcopies, hsteps, haccepts⟩ := hl.accepts hc htable (Or.inr hfinish)
  rw [hinput] at hsteps
  obtain ⟨least, after, metrics', parsed, hattempt, hparsed, hsnapshots⟩ :=
    attempt_of_steps hc.wellFormed (hc.lookup?_wildcard htable) hstands hflat hsteps haccepts metrics
  exact ⟨least, after, metrics', parsed, hattempt, hparsed, hsnapshots.trans hcopies⟩

-- It accepts what is derived from the start symbol, with the tree of the derivation.
theorem attempt_accepts (htable : setting.table = .build setting.table.graph setting.table.grammar)
    (hc : ConflictFree setting.table.grammar setting.table.graph) (hstands : setting.document.Stands store forest)
    (hflat : setting.reparse = true ∨ ∃ entries, forest = .ofLeaves entries)
    (hd : Derives setting.table.grammar.toRules Leaf.Passed [setting.table.grammar.start]
      (setting.leaves forest) [tree]) (metrics : Metrics) :
    ∃ least after metrics' content, (∀ fuel, least ≤ fuel →
        setting.attempt fuel store metrics = some (after, metrics', .ok .accepted)) ∧
      setting.document.Stands after content ∧ content.snapshots = [tree] := by
  have hfinish : (setting.leaf Document.eosLabel).symbol = some finishId := by
    rw [Setting.leaf, Setting.idOf?]
    exact hc.wellFormed.symbolId?_eq_some.mpr hc.wellFormed.finish
  obtain ⟨slots, hcopies, hsteps, haccepts⟩ := @Deterministic.accepts_derives _ _ hc.deterministic [] _ [] _ _
    (List.forall_mem_nil _) hd hfinish (Or.inl hc.finish)
  rw [← htable] at hsteps haccepts
  obtain ⟨least, after, metrics', content, hattempt, hcontent, hsnapshots⟩ :=
    attempt_of_steps hc.wellFormed (hc.deterministic.lookup?_wildcard htable) hstands hflat hsteps haccepts metrics
  exact ⟨least, after, metrics', content, hattempt, hcontent, hsnapshots.trans hcopies⟩

end

-- A token as a leaf of a derivation.
def Token.leaf (grammar : Grammar) (token : Token) : Leaf :=
  let label := Label.ofContent (Document.tokenContent token)
  ⟨grammar.symbolId? label.key, false, .node label.symbol label.text []⟩

-- What a derivation says of its leaves does not depend on what may be passed through.
theorem Derives.of_plain {rules : Rules} {passed : Leaf → Prop} {sequence : List Nat} {leaves : List Leaf}
    {trees : List Snapshot}
    (hd : Derives rules (fun _ => False) sequence (leaves.map fun leaf => { leaf with passes := false }) trees) :
    Derives rules passed sequence leaves trees := by
  generalize hplain : leaves.map (fun leaf => { leaf with passes := false }) = plain at hd
  induction hd generalizing leaves with
  | nil =>
      obtain rfl := List.map_eq_nil_iff.mp hplain
      exact .nil
  | @leaf terminal rest leaf behind others trees hs ht hbehind _ ih =>
      obtain rfl : behind = [] := List.eq_nil_iff_forall_not_mem.mpr hbehind
      obtain ⟨first, leaves, rfl, rfl, hrest⟩ := List.map_eq_cons_iff.mp hplain
      exact @Derives.leaf _ _ _ _ first [] leaves _ hs ht (fun _ h => nomatch h) (ih hrest)
  | node hleft _ _ ihbelow ih =>
      obtain ⟨below, rest, rfl, hbelow, hrest⟩ := List.map_eq_append_iff.mp hplain
      exact .node hleft (ihbelow hbelow) (ih hrest)

-- The copy of the root over one tree.
def Snapshot.ofRoot (content : List Snapshot) : Snapshot :=
  .node Document.rootSymbol "" (.node (.terminal "") "" [] :: (content ++ [.node .finish "" []]))

theorem Document.snapshot_of_framed {document : Document} {store : Store} {forest : Forest} {first last : Label}
    (hp : store.Planted document.root (document.framed first last forest)) (hfirst : first.parsed = bosLabel)
    (hlast : last.parsed = eosLabel) : store.snapshot document.root = .ofRoot forest.snapshots := by
  obtain ⟨symbol, rule, text, changed⟩ := first
  obtain ⟨symbol', rule', text', changed'⟩ := last
  obtain ⟨rfl, rfl, rfl, -⟩ := Label.mk.inj hfirst
  obtain ⟨rfl, rfl, rfl, -⟩ := Label.mk.inj hlast
  rw [hp.snapshot, framed, Forest.snapshots, Forest.snapshots_append]
  rfl

theorem Document.Stands.snapshot_root {document : Document} {store : Store} {forest : Forest}
    (hs : document.Stands store forest) : store.snapshot document.root = .ofRoot forest.snapshots :=
  snapshot_of_framed hs.toPlanted rfl rfl

theorem Snapshot.ofRoot_inj {trees others : List Snapshot} (h : ofRoot trees = ofRoot others) : trees = others := by
  obtain ⟨-, -, h⟩ := Snapshot.node.inj h
  exact List.append_cancel_right (List.cons.inj h).2

-- The same for a parser, on a document without trees.
theorem Parser.parse_of_lone {parser : Parser} {document other : Document} {store : Store} {content : Forest}
    {entries : List (Nat × Label)} {table : SyntaxTable} {passThrough : List String}
    (hc : Deterministic table.grammar table.graph) (hbuild : table = .build table.graph table.grammar)
    (htable : parser.table = table) (hpass : parser.passThrough = passThrough)
    (hstands : document.Stands store (.ofLeaves entries))
    (hl : Setting.Lone ⟨table, passThrough, other, false⟩ false table.grammar.start content)
    (htokens : content.tokens.map Prod.snd = (Forest.ofLeaves entries).tokens.map Prod.snd) (reparse : Bool) :
    ∃ least parser' after parsed,
      (∀ fuel, least ≤ fuel → parser.parse fuel store document reparse = some (parser', after, .ok .accepted)) ∧
      document.Stands after parsed ∧ parsed.snapshots = content.snapshots := by
  obtain rfl := htable
  obtain rfl := hpass
  obtain ⟨least, after, metrics, parsed, hattempt, hparsed⟩ :=
    @attempt_of_lone (parser.setting document (reparse || parser.reparse)) _ _ hc hbuild hstands (Or.inr ⟨_, rfl⟩) _
      (hl.congr rfl rfl) htokens default
  exact ⟨least, _, after, parsed, fun fuel hfuel => Parser.parse_of_accepted (hattempt fuel hfuel), hparsed⟩

-- Tables without conflicts are complete: a fresh document is accepted if its tokens
-- are derived from the start symbol, and then holds the tree of the derivation.
theorem parse_ofTokens_accepts {grammar : Grammar} {mode : Mode} (hb : grammar.Built)
    (hfinish : grammar.toRules.Avoids (· == .finish)) (hwild : grammar.toRules.Avoids Symbol.isWildcard)
    (hconflicts : (SyntaxTable.ofGrammar grammar mode).conflicts = []) (parser : Parser)
    (htable : parser.table = .ofGrammar grammar mode) (store : Store) (tokens : List Token) (reparse : Bool)
    {tree : Snapshot}
    (hd : Derives grammar.toRules (fun _ => False) [grammar.start] (tokens.map (Token.leaf grammar)) [tree]) :
    ∃ least after final,
      (∀ fuel, least ≤ fuel →
        parser.parse fuel (Document.ofTokens store tokens).1 (Document.ofTokens store tokens).2 reparse =
          some (after, final, .ok .accepted)) ∧
      final.snapshot (Document.ofTokens store tokens).2.root = .ofRoot [tree] := by
  have hw := hb.wellFormed
  have hc : ConflictFree grammar (.build grammar mode) :=
    ⟨hw, faithful_build hw mode, hfinish, hwild, hconflicts⟩
  have hstands := Document.stands_ofTokens store tokens
  generalize Document.ofTokens store tokens = opened at hstands ⊢
  obtain ⟨opened, document⟩ := opened
  dsimp only at hstands ⊢
  generalize hsetting : parser.setting document (reparse || parser.reparse) = setting
  have hsame : setting.table = .ofGrammar grammar mode := by
    rw [← hsetting]
    exact htable
  have hdocument : setting.document = document := by
    rw [← hsetting]
    rfl
  have hgrammar : setting.table.grammar = grammar := congrArg SyntaxTable.grammar hsame
  have hgraph : setting.table.graph = .build grammar mode := congrArg SyntaxTable.graph hsame
  have hleaves : (setting.leaves (.ofLeaves (Document.enumerate (store.size + 2)
      (tokens.map Document.tokenContent)))).map (fun leaf => { leaf with passes := false }) =
      tokens.map (Token.leaf grammar) := by
    have hlabels := congrArg (List.map fun label => { setting.leaf label with passes := false })
      (@Document.enumerate_labels (store.size + 2) (tokens.map Document.tokenContent))
    rw [List.map_map, List.map_map, List.map_map] at hlabels
    rw [Setting.leaves_ofLeaves, List.map_map]
    refine hlabels.trans (List.map_congr_left fun token _ => ?_)
    obtain ⟨name, hname⟩ := (Document.isToken_tokenContent token).key
    simp only [Function.comp_apply, Setting.leaf, Setting.idOf?, hgrammar, Token.leaf, hname]
    rfl
  obtain ⟨least, final, metrics, content, hattempt, hcontent, hsnapshots⟩ :=
    @attempt_accepts setting _ _ tree (by rw [hgraph, hgrammar]; exact hsame) (by rw [hgraph, hgrammar]; exact hc)
      (hdocument ▸ hstands) (Or.inr ⟨_, rfl⟩) (hgrammar ▸ .of_plain (hleaves ▸ hd)) default
  refine ⟨least, _, final, fun fuel hfuel => Parser.parse_of_accepted (hsetting ▸ hattempt fuel hfuel), ?_⟩
  rw [hdocument] at hcontent
  rw [hcontent.snapshot_root, hsnapshots]

-- The tree of a word of the grammar that crosses A and B.
def Snapshot.crossed : Snapshot :=
  .node (.nonterminal "S") "" [.node (.terminal "a") "a" [],
    .node (.nonterminal "A") "" [.node (.terminal "c") "c" []], .node (.terminal "d") "d" []]

theorem derives_crossed : Derives Rules.crossed (fun _ => False) [Rules.crossed.start]
    (Token.crossed.map (Token.leaf Rules.crossed.toGrammar)) [.crossed] := by
  have hleaf : ∀ (token : Token) (terminal : Nat) {rest : List Nat} {leaves : List Leaf} {trees : List Snapshot},
      (token.leaf Rules.crossed.toGrammar).symbol = some terminal → terminal ∈ Rules.crossed.terminals →
      Derives Rules.crossed (fun _ => False) rest leaves trees →
      Derives Rules.crossed (fun _ => False) (terminal :: rest) (token.leaf Rules.crossed.toGrammar :: leaves)
        ((token.leaf Rules.crossed.toGrammar).copy :: trees) :=
    fun _ _ _ _ _ hs ht hd => @Derives.leaf _ _ _ _ _ [] _ _ hs ht (fun _ h => nomatch h) hd
  have hlast := hleaf (.matched none "d" 2 3) 5 (by decide +kernel) (by decide) .nil
  have hinner := hleaf (.matched none "c" 1 2) 9 (by decide +kernel) (by decide) .nil
  have hnode := @Derives.node Rules.crossed _ 5 4 _ _ _ _ _ rfl hinner hlast
  have hall := hleaf (.matched none "a" 0 1) 3 (by decide +kernel) (by decide) hnode
  exact @Derives.node Rules.crossed _ 1 2 [] _ [] _ [] rfl hall .nil

theorem parse_ofTokens_accepts_crossed :
    (Rules.crossed.toGrammar.Built ∧ Rules.crossed.Avoids (· == .finish) ∧ Rules.crossed.Avoids Symbol.isWildcard ∧
      (SyntaxTable.ofGrammar Rules.crossed.toGrammar .lr1).conflicts = [] ∧
      Derives Rules.crossed (fun _ => False) [Rules.crossed.start]
        (Token.crossed.map (Token.leaf Rules.crossed.toGrammar)) [.crossed]) ∧
    ∃ least after final,
      (∀ fuel, least ≤ fuel →
        (Parser.ofTable (.ofGrammar Rules.crossed.toGrammar .lr1) [] true false).parse fuel
            (Document.ofTokens .empty Token.crossed).1 (Document.ofTokens .empty Token.crossed).2 false =
          some (after, final, .ok .accepted)) ∧
      final.snapshot (Document.ofTokens .empty Token.crossed).2.root = .ofRoot [.crossed] :=
  ⟨⟨built_crossed, Rules.avoids_of_all rfl, Rules.avoids_of_all rfl, rfl, derives_crossed⟩,
    parse_ofTokens_accepts built_crossed (Rules.avoids_of_all rfl) (Rules.avoids_of_all rfl) rfl
      (.ofTable (.ofGrammar Rules.crossed.toGrammar .lr1) [] true false) rfl .empty Token.crossed false
      derives_crossed⟩

end IncrementalLR
