import IncrementalLR.Proofs.Document.Reparsing
import IncrementalLR.Proofs.Document.Reuse

namespace IncrementalLR

theorem Forest.Still.settled {forest : Forest} (hs : forest.Still) : forest.Settled fun _ below => below.Still := by
  induction forest with
  | nil => trivial
  | leaf id label after ih => exact ih hs.2
  | node id symbol changed below after ihbelow ih => exact ⟨fun _ => hs.2.1, ihbelow hs.2.1, ih hs.2.2⟩

-- Nothing on the stack is flagged, and nothing below a node to come that is not flagged.
structure Scene.Still (scene : Scene) : Prop where
  stack : (Piece.contents .nil scene.pieces).Still
  ahead : scene.ahead.Settled fun _ below => below.Still

namespace Setting

variable {setting : Setting} {scene other : Scene} {pieces pieces' : List Piece} {store after : Store} {forest : Forest}
  {fuel : Nat}

theorem BreaksDown.still (hb : setting.BreaksDown pieces pieces') (hs : (Piece.contents .nil pieces).Still) :
    (Piece.contents .nil pieces').Still := by
  induction hb with
  | leaf h =>
      rw [contents_again? h]
      exact hs
  | node h _ ih =>
      obtain ⟨hbelow, hnode⟩ := Forest.still_append.mp hs
      refine ih ?_
      rw [contents_allAgain? h]
      exact Forest.still_append.mpr ⟨hbelow, hnode.2.1⟩
  | span _ => exact hs
  | passed => exact hs

theorem still_reduced {production : Nat} (hs : scene.Still) (h : setting.reduced? production scene = some other) :
    other.Still := by
  obtain ⟨hstack, hahead⟩ := hs
  obtain ⟨children, below, left, next, hpop, -, -, rfl⟩ := reduced?_spec h
  have hcontents := Piece.contents_of_pop .nil hpop
  rw [Forest.append_nil] at hcontents
  rw [hcontents] at hstack
  obtain ⟨hbelow, hchildren⟩ := Forest.still_append.mp hstack
  exact ⟨Forest.still_append.mpr ⟨hbelow, rfl, hchildren, trivial⟩, hahead⟩

-- A wildcard takes flags off what it takes.
theorem still_spans {leaves : List (Nat × Label)} {rest : Forest} (hs : Spans forest leaves rest)
    (hf : forest.Settled fun _ below => below.Still) :
    (Forest.ofLeaves leaves).Still ∧ rest.Settled fun _ below => below.Still := by
  induction hs with
  | done => exact ⟨trivial, hf⟩
  | descend _ ih => exact ih (Forest.settled_append.mpr hf.2)
  | take _ _ ih => exact ⟨⟨rfl, (ih hf).1⟩, (ih hf).2⟩

theorem still_moves (hs : scene.Still) (hm : Moves setting scene other) : other.Still := by
  have ⟨hstack, hahead⟩ := hs
  cases hm with
  | shift ha _ _ =>
      rw [ha] at hahead
      exact ⟨Forest.still_append.mpr ⟨hstack, rfl, trivial⟩, hahead⟩
  | reduce _ _ h => exact still_reduced hs h
  | breakDown _ _ _ hb => exact ⟨hb.still hstack, hahead⟩
  | pass ha _ _ _ _ =>
      rw [ha] at hahead
      exact ⟨Forest.still_append.mpr ⟨hstack, rfl, trivial⟩, hahead⟩
  | span _ _ h =>
      obtain ⟨hleaves, hrest⟩ := still_spans h hahead
      exact ⟨Forest.still_append.mpr ⟨hstack, hleaves⟩, hrest⟩
  | reduceSpan _ h => exact still_reduced hs h
  | descend ha =>
      rw [ha] at hahead
      exact ⟨hstack, Forest.settled_append.mpr ⟨hahead.2.1, hahead.2.2⟩⟩
  | reuse _ ha _ =>
      rw [ha] at hahead
      exact ⟨Forest.still_append.mpr ⟨hstack, rfl, hahead.1 rfl, trivial⟩, hahead.2.2⟩

theorem still_reachable {start : Scene} (hr : Reachable setting start scene) (hs : start.Still) : scene.Still := by
  induction hr with
  | refl => exact hs
  | tail _ hm ih => exact still_moves ih hm

-- What an attempt makes of a document as it accepts has no flags.
theorem still_of_accepted (ha : setting.table.OfAutomaton)
    (hs : setting.document.Stands store forest) (hset : forest.Settled fun _ below => below.Still)
    {metrics metrics' : Metrics} (h : setting.attempt fuel store metrics = some (after, metrics', .ok .accepted)) :
    ∃ content, setting.document.Stands after content ∧ content.Settled fun _ below => below.Still := by
  obtain ⟨run, scene, rfl, hr, haccepts, hshows⟩ := exists_scene_of_accepted ha.wellFormed hs.toPlanted h
  have hinner : ∀ entry ∈ forest.leaves, entry.2.symbol ≠ .finish := by
    intro entry hentry h
    rcases hs.tokens entry hentry with ⟨name, hname⟩ | ⟨name, hname⟩
    · cases h.symm.trans hname
    · cases h.symm.trans hname
  obtain ⟨hahead, htokens⟩ := ahead_of_accepts ha.wellFormed ha.build
    (Document.closes_scene.reachable hr : setting.document.Closes scene) hinner (@Reachable.tokens _ .nil _ _ hr) haccepts
  have hstill : scene.Still := still_reachable hr ⟨trivial, Forest.settled_append.mpr ⟨hset, trivial⟩⟩
  have hisToken : ∀ entry ∈ (Piece.contents .nil scene.pieces).leaves, entry.2.IsToken := by
    rw [← Forest.isToken_tokens, htokens, Forest.isToken_tokens]
    exact hs.tokens
  exact ⟨_, (Document.stands_accept hshows hahead hisToken).1, hstill.stack.settled⟩

-- Every attempt accepts or rejects.
theorem exists_attempt (ha : setting.table.OfAutomaton)
    (hfree : ConflictFree setting.table.grammar setting.table.graph) (hmode : setting.table.graph.mode ≠ .lr0)
    (hclosing : setting.passes Document.eosLabel = false) (hs : setting.document.Stands store forest)
    (metrics : Metrics) :
    ∃ least after metrics' outcome,
      ∀ fuel, least ≤ fuel → setting.attempt fuel store metrics = some (after, metrics', .ok outcome) := by
  have hplain : ∀ pieces reach, setting.lookup? pieces (.wildcard reach) = none :=
    lookup?_wildcard_of_avoids hfree.wellFormed hfree.faithful hfree.wildcards ha.build
  have hacc : Acc (fun after scene => Moves setting scene after) (setting.document.scene store forest) :=
    Along.nil.acc ha hfree hmode hplain
  obtain ⟨least, run, outcome, hattempt, hconcludes⟩ := attempt_of_acc hplain ha.wellFormed hs hacc metrics
  generalize hresult : (run, outcome) = result at hconcludes
  cases hconcludes with
  | accepted _ _ _ =>
      obtain ⟨rfl, rfl⟩ := Prod.mk.inj hresult
      exact ⟨least, _, _, _, hattempt⟩
  | rejected _ _ _ =>
      obtain ⟨rfl, rfl⟩ := Prod.mk.inj hresult
      exact ⟨least, _, _, _, hattempt⟩
  | @failed _ other _ hr hfails =>
      have halong : setting.Along other.pieces := by
        clear hfails
        induction hr with
        | refl => exact .nil
        | tail _ hm ih => exact ih.moves ha hplain hm
      exact absurd hfails (halong.not_fails ha hfree.finish hclosing (Document.closes_scene.reachable hr))

end Setting

theorem Parser.exists_parse_of_attempts {parser : Parser} {document : Document} {store : Store} {reparse : Bool}
    {holds : Bool → Store → Metrics → Prop}
    (hattempt : ∀ reparse {store : Store} {metrics : Metrics}, holds reparse store metrics →
      ∃ least after metrics' outcome, ∀ fuel, least ≤ fuel →
        (parser.setting document reparse).attempt fuel store metrics = some (after, metrics', .ok outcome))
    (hagain : ∀ {fuel node state : Nat} {first : Store} {metrics : Metrics}, parser.exactErrors = true →
      store.Remarked (fun _ => True) first →
      (parser.setting document (reparse || parser.reparse)).attempt fuel store default =
        some (first, metrics, .ok (.rejected node state true)) → holds true first metrics)
    (hs : holds (reparse || parser.reparse) store default) :
    ∃ least parser' after status,
      ∀ fuel, least ≤ fuel → parser.parse fuel store document reparse = some (parser', after, .ok status) := by
  obtain ⟨least, -, -, after, metrics, outcome, hattempts, -, -⟩ :=
    @exists_attempts parser document store reparse holds (fun _ _ _ _ => True)
      (fun reparse {_} {_} hs => by
        obtain ⟨least, after, metrics', outcome, h⟩ := hattempt reparse hs
        exact ⟨least, after, metrics', outcome, h, trivial⟩) hagain hs
  cases outcome with
  | accepted => exact ⟨least, _, after, _, fun fuel hfuel => by rw [parse, hattempts fuel hfuel, Option.map_some]⟩
  | rejected node state unsure =>
      exact ⟨least, _, after, _, fun fuel hfuel => by rw [parse, hattempts fuel hfuel, Option.map_some]⟩

namespace Document

variable {document : Document} {store : Store} {passThrough : List String}

theorem Session.stands {table : SyntaxTable} (ha : table.OfAutomaton) (hs : Session table passThrough document store) :
    ∃ forest, document.Stands store forest := by
  obtain ⟨forest, hstands, -⟩ := hs.rests_of_accepted (fun _ _ h => h) fun {reparse} _ _ _ _ _ _ hstands hset hattempt =>
    @Setting.still_of_accepted ⟨table, passThrough, document, reparse⟩ _ _ _ _ ha hstands hset _ _ hattempt
  exact ⟨forest, hstands⟩

-- After any session a parse ends, whether it reuses subtrees or not, and it accepts or
-- rejects. The names of the grammar may be among those that are passed through.
theorem session_parse_ends {grammar : Grammar} {mode : Mode} (hb : grammar.Built) (hmode : mode ≠ .lr0)
    (hfinish : grammar.toRules.Avoids (· == .finish)) (hwild : grammar.toRules.Avoids Symbol.isWildcard)
    (hconflicts : (SyntaxTable.ofGrammar grammar mode).conflicts = []) (hclosing : "eos" ∉ passThrough)
    (hs : Session (.ofGrammar grammar mode) passThrough document store) {parser : Parser}
    (htable : parser.table = .ofGrammar grammar mode) (hpass : parser.passThrough = passThrough) (reparse : Bool) :
    ∃ least parser' after status,
      ∀ fuel, least ≤ fuel → parser.parse fuel store document reparse = some (parser', after, .ok status) := by
  have ha := SyntaxTable.ofAutomaton_ofGrammar hb mode
  have hfree : ConflictFree grammar (SyntaxTable.ofGrammar grammar mode).graph :=
    ⟨hb.wellFormed, faithful_build hb.wellFormed mode, hfinish, hwild, hconflicts⟩
  obtain ⟨forest, hstands⟩ := hs.stands ha
  refine @Parser.exists_parse_of_attempts parser document store reparse (fun _ store _ => document.Stands store forest)
    (fun reparse {store metrics} hstands => ?_) (fun _ hr _ => hstands.remarked hr) hstands
  rw [show parser.setting document reparse = ⟨.ofGrammar grammar mode, passThrough, document, reparse⟩ by
    rw [Parser.setting, htable, hpass]]
  refine @Setting.exists_attempt ⟨.ofGrammar grammar mode, passThrough, document, reparse⟩ _ _ ha hfree ?_ ?_ hstands
    metrics
  · rw [show (SyntaxTable.ofGrammar grammar mode).graph.mode = mode from mode_build grammar mode]
    exact hmode
  · rw [Setting.passes, Bool.or_eq_false_iff, List.contains_eq_mem, decide_eq_false_iff_not]
    exact ⟨rfl, hclosing⟩

-- A token and a nonterminal of the grammar are passed through where nothing else is to be
-- done, and the last token is replaced after a first parse.
theorem session_parse_ends_crossed :
    ∃ store,
      (Rules.crossed.toGrammar.Built ∧ Mode.lr1 ≠ .lr0 ∧ Rules.crossed.Avoids (· == .finish) ∧
        Rules.crossed.Avoids Symbol.isWildcard ∧
        (SyntaxTable.ofGrammar Rules.crossed.toGrammar .lr1).conflicts = [] ∧ "eos" ∉ ["e", "B"] ∧
        Session (.ofGrammar Rules.crossed.toGrammar .lr1) ["e", "B"] Document.crossed.2 store) ∧
      ∃ least parser' after status, ∀ fuel, least ≤ fuel →
        (Parser.ofTable (.ofGrammar Rules.crossed.toGrammar .lr1) ["e", "B"] false false).parse fuel store
          Document.crossed.2 false = some (parser', after, .ok status) := by
  have hsteps : ((Parser.ofTable (.ofGrammar Rules.crossed.toGrammar .lr1) ["e", "B"] false false).parse 100
      Document.crossed.1 Document.crossed.2 false).map (fun first => (first.2.2, Document.crossed.2.content first.2.1)) =
        some (.ok .accepted, [2, 3, 4]) := by
    decide +kernel
  obtain ⟨⟨parser', parsed, status⟩, hparse, hrest⟩ := Option.map_eq_some_iff.mp hsteps
  obtain ⟨-, hcontent⟩ := Prod.mk.inj hrest
  have hopened : Session (.ofGrammar Rules.crossed.toGrammar .lr1) ["e", "B"] Document.crossed.2 Document.crossed.1 :=
    @Session.opened _ _ _ .empty _ Token.crossed rfl
  have hsession : Session (.ofGrammar Rules.crossed.toGrammar .lr1) ["e", "B"] Document.crossed.2
      (replaceToken parsed 4 none "e") := by
    refine (hopened.parse rfl rfl hparse).replace ?_
    rw [hcontent]
    decide
  exact ⟨_, ⟨built_crossed, nofun, Rules.avoids_of_all rfl, Rules.avoids_of_all rfl, rfl, by decide, hsession⟩,
    session_parse_ends built_crossed (show Mode.lr1 ≠ .lr0 from nofun) (Rules.avoids_of_all rfl)
      (Rules.avoids_of_all rfl) rfl (by decide) hsession rfl rfl false⟩

end Document

end IncrementalLR
