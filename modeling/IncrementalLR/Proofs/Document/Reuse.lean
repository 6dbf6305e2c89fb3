import IncrementalLR.Proofs.Document.Completeness
import IncrementalLR.Proofs.Document.Session

namespace IncrementalLR

-- What an attempt settles. Where it was unsure it settles nothing.
def Outcome.status? : Outcome → Option ParseStatus
  | accepted => some .accepted
  | rejected node _ false => some (.rejected node)
  | rejected _ _ true => none

-- Whether a parse ends as the leaf parser does: it accepts with the same trees, or it
-- rejects at the token before which that halts.
inductive Judges (table : SyntaxTable) (input : List Leaf) (document : Document) (forest : Forest) (after : Store) :
    ParseStatus → Prop where
  | accepted {machine : Machine} {content : Forest} :
      Machine.Steps table ⟨[], input⟩ machine → Machine.Accepts table machine →
      document.Stands after content → content.snapshots = (machine.slots.map Slot.copy).reverse →
      Judges table input document forest after .accepted
  | rejected {machine : Machine} {place node : Nat} :
      Machine.Steps table ⟨[], input⟩ machine → machine.next table = none → ¬Machine.Accepts table machine →
      place + machine.leaves.length = input.length →
      (forest.leaves.map Prod.fst ++ [document.eos])[place]? = some node →
      Judges table input document forest after (.rejected node)

-- The first token behind some others, of those of a forest and the end of the input.
theorem Document.getElem?_of_tokens {document : Document} {parsed forest after : Forest} {id : Nat} {label last : Label}
    (h : (parsed ++ .leaf id label after).tokens = (forest ++ .leaf document.eos last .nil).tokens) :
    (forest.leaves.map Prod.fst ++ [document.eos])[parsed.leaves.length]? = some id := by
  have hids := congrArg (List.map Prod.fst) h
  rw [Forest.tokens, Forest.tokens, List.map_map, List.map_map, Forest.leaves_append, Forest.leaves_append,
    List.map_append, List.map_append] at hids
  have hids : parsed.leaves.map Prod.fst ++ id :: after.leaves.map Prod.fst =
      forest.leaves.map Prod.fst ++ [document.eos] := hids
  rw [← hids, List.getElem?_append_right (by simp)]
  simp

theorem Document.getElem?_place {document : Document} {parsed inner forest after : Forest} {id : Nat} {label : Label}
    (htotal : (parsed ++ inner).tokens = forest.tokens) (hahead : inner ++ document.closing = .leaf id label after) :
    (forest.leaves.map Prod.fst ++ [document.eos])[parsed.leaves.length]? = some id := by
  refine @getElem?_of_tokens document parsed forest after id label eosLabel ?_
  rw [← hahead, ← Forest.append_assoc, Forest.tokens_append, htotal, Forest.tokens_append]
  rfl

namespace Setting

variable {setting : Setting} {tokens : List (Nat × Label)} {scene : Scene} {store : Store} {forest : Forest}

-- The place of the next token in the document.
theorem Sound.place {loose : Bool} (hs : setting.Sound loose forest.tokens scene) {id : Nat} {label : Label}
    {after : Forest} (hahead : scene.ahead = .leaf id label after) :
    (Piece.contents .nil scene.pieces).leaves.length + (setting.machine scene).leaves.length =
        (setting.input forest.tokens).length ∧
      (forest.leaves.map Prod.fst ++ [setting.document.eos])[(Piece.contents .nil scene.pieces).leaves.length]? =
        some id := by
  obtain ⟨inner, hinner, htotal⟩ := hs.total
  constructor
  · rw [← hs.leaves, List.length_append, Setting.leaves, List.length_map]
    rfl
  · exact Document.getElem?_place htotal (hinner.symm.trans hahead)

-- A parse of a document that reuses whole subtrees comes to an end, and it ends as the
-- leaf parser does unless it is unsure.
theorem attempt_judges (he : setting.Exact) (hmode : setting.table.graph.mode ≠ .lr0)
    (hstands : setting.document.Stands store forest) (hset : forest.Settled (setting.Whole false))
    (metrics : Metrics) :
    ∃ least after metrics' outcome,
      (∀ fuel, least ≤ fuel → setting.attempt fuel store metrics = some (after, metrics', .ok outcome)) ∧
      (∀ status, outcome.status? = some status →
        Judges setting.table (setting.input forest.tokens) setting.document forest after status) ∧
      (outcome.status? = none → ¬Plain setting (setting.document.scene store forest)) := by
  have ht := Forest.isToken_tokens.mpr hstands.tokens
  have hs := @sound_scene setting false store _ hset
  obtain ⟨least, run, outcome, hattempt, hconcludes⟩ := attempt_of_acc (he.plain.resolve_left Bool.false_ne_true)
    he.wellFormed hstands (hs.acc he hmode) metrics
  have hagrees := Concludes.agrees he ht hs rfl rfl hconcludes
  generalize hresult : (run, outcome) = result at hagrees
  cases hagrees with
  | @accepted other scene slots hsteps haccepts hcopies hscene hahead hshows =>
      obtain ⟨rfl, rfl⟩ := Prod.mk.inj hresult
      refine ⟨least, _, _, _, hattempt, fun status hstatus => ?_, nofun⟩
      obtain rfl := Option.some_inj.mp hstatus
      exact .accepted hsteps haccepts (hscene.stands ht hahead hshows).1 hcopies.symm
  | @rejected other scene id state label after hsteps hhalts hnot hscene hahead =>
      obtain ⟨rfl, rfl⟩ := Prod.mk.inj hresult
      refine ⟨least, _, _, _, hattempt, fun status hstatus => ?_, nofun⟩
      obtain rfl := Option.some_inj.mp hstatus
      obtain ⟨hplace, hnode⟩ := hscene.place hahead
      exact .rejected hsteps hhalts hnot hplace hnode
  | @unsure other id state hplain =>
      obtain ⟨rfl, rfl⟩ := Prod.mk.inj hresult
      exact ⟨least, _, _, _, hattempt, nofun, fun _ => hplain⟩

end Setting

theorem Setting.input_of_tokens {setting : Setting} {tokens others : List (Nat × Label)}
    (h : tokens.map Prod.snd = others.map Prod.snd) : setting.input tokens = setting.input others := by
  have hmap : ∀ entries : List (Nat × Label), entries.map (fun entry => setting.leaf entry.2) =
      (entries.map Prod.snd).map setting.leaf := fun entries => by rw [List.map_map]; rfl
  rw [input, input, hmap, hmap, h]

namespace Parser

variable {parser : Parser} {document : Document} {store last : Store} {forest : Forest} {reparse : Bool}

theorem exists_parse {metrics : Metrics} {outcome : Outcome} {status : ParseStatus}
    (hstatus : outcome.status? = some status) :
    ∃ parser', ∀ fuel, parser.attempts fuel store document reparse = some (last, metrics, .ok outcome) →
      parser.parse fuel store document reparse = some (parser', last, .ok status) := by
  cases outcome with
  | accepted =>
      obtain rfl := Option.some_inj.mp hstatus
      exact ⟨_, fun fuel h => by rw [parse, h, Option.map_some]⟩
  | rejected node state unsure =>
      cases unsure with
      | true => cases hstatus
      | false =>
          obtain rfl := Option.some_inj.mp hstatus
          exact ⟨_, fun fuel h => by rw [parse, h, Option.map_some]⟩

-- A parse ends if attempts do. It is one attempt, or a second one once a first one was
-- unsure, which finds the store as it was but for marks.
theorem exists_attempts {holds : Bool → Store → Metrics → Prop} {ends : Bool → Store → Store → Outcome → Prop}
    (hattempt : ∀ reparse {store : Store} {metrics : Metrics}, holds reparse store metrics →
      ∃ least after metrics' outcome,
        (∀ fuel, least ≤ fuel →
          (parser.setting document reparse).attempt fuel store metrics = some (after, metrics', .ok outcome)) ∧
        ends reparse store after outcome)
    (hagain : ∀ {fuel node state : Nat} {first : Store} {metrics : Metrics}, parser.exactErrors = true →
      store.Remarked (fun _ => True) first →
      (parser.setting document (reparse || parser.reparse)).attempt fuel store default =
        some (first, metrics, .ok (.rejected node state true)) → holds true first metrics)
    (hs : holds (reparse || parser.reparse) store default) :
    ∃ least reparse' middle after metrics outcome,
      (∀ fuel, least ≤ fuel → parser.attempts fuel store document reparse = some (after, metrics, .ok outcome)) ∧
      ends reparse' middle after outcome ∧
      (reparse' = true ∨ reparse' = (reparse || parser.reparse) ∧ middle = store ∧
        (outcome.status? = none → parser.exactErrors = false)) := by
  obtain ⟨least, first, metrics, outcome, hfirst, hends⟩ := hattempt (reparse || parser.reparse) hs
  by_cases hagain : parser.exactErrors = true ∧ ∃ node state, outcome = .rejected node state true
  · obtain ⟨hexact, node, state, rfl⟩ := hagain
    have hremarked : store.Remarked (fun _ => True) first := by
      rcases attempt_remarks (Store.closed_all store) (Document.within_all _) (hfirst least (Nat.le_refl _)) with
        ⟨haccepted, -⟩ | ⟨-, hr⟩
      · cases haccepted
      · exact hr
    obtain ⟨most, after, metrics', outcome, hsecond, hends'⟩ :=
      hattempt true (hagain hexact hremarked (hfirst least (Nat.le_refl _)))
    refine ⟨max least most, true, first, after, metrics', outcome, fun fuel hfuel => ?_, hends', Or.inl rfl⟩
    have h := hfirst fuel (Nat.le_trans (Nat.le_max_left _ _) hfuel)
    have h' := hsecond fuel (Nat.le_trans (Nat.le_max_right _ _) hfuel)
    rw [attempts, h]
    simpa [hexact] using h'
  · have hunsure : ∀ node state, outcome = .rejected node state true → parser.exactErrors = false :=
      fun node state h => eq_false_of_ne_true fun hexact => hagain ⟨hexact, node, state, h⟩
    refine ⟨least, _, store, first, metrics, outcome, fun fuel hfuel => ?_, hends, Or.inr ⟨rfl, rfl, fun hnone => ?_⟩⟩
    · have h := hfirst fuel hfuel
      rw [attempts, h]
      cases outcome with
      | accepted => rfl
      | rejected node state unsure =>
          cases unsure with
          | false => rfl
          | true => simp [hunsure node state rfl]
    · cases outcome with
      | accepted => cases hnone
      | rejected node state unsure =>
          cases unsure with
          | false => cases hnone
          | true => exact hunsure node state rfl

-- A parse that may reuse whole subtrees ends as the leaf parser does. Where its first
-- attempt is unsure there is another one, which reuses nothing. It is never unsure of a
-- document without trees.
theorem parse_judges_of_sure {table : SyntaxTable} {passThrough : List String}
    (he : ∀ reparse, Setting.Exact ⟨table, passThrough, document, reparse⟩) (hmode : table.graph.mode ≠ .lr0)
    (htable : parser.table = table) (hpass : parser.passThrough = passThrough)
    (hsure : parser.exactErrors = true ∨ reparse = true ∨ ∃ entries, forest = .ofLeaves entries)
    (hstands : document.Stands store forest)
    (hset : forest.Settled (Setting.Whole ⟨table, passThrough, document, false⟩ false)) :
    ∃ least parser' after status,
      (∀ fuel, least ≤ fuel → parser.parse fuel store document reparse = some (parser', after, .ok status)) ∧
      Judges table (Setting.input ⟨table, passThrough, document, false⟩ forest.tokens) document forest after
        status := by
  obtain rfl := htable
  obtain rfl := hpass
  have hset' : ∀ reparse, forest.Settled (Setting.Whole (parser.setting document reparse) false) :=
    fun reparse => hset.imp fun _ _ h => @Setting.Whole.reparse _ _ _ reparse _ h
  obtain ⟨least, reparse', middle, after, metrics, outcome, hattempts, ⟨hjudges, hunsure⟩, hsame⟩ :=
    @exists_attempts parser document store reparse (fun _ store _ => document.Stands store forest) _
      (fun reparse {_} {metrics} hstands => @Setting.attempt_judges (parser.setting document reparse) _ _ (he reparse)
        hmode hstands (hset' reparse) metrics) (fun _ hr _ => hstands.remarked hr) hstands
  cases hstatus : outcome.status? with
  | some status =>
      obtain ⟨parser', hparse⟩ := @exists_parse parser document store after reparse metrics _ _ hstatus
      exact ⟨least, parser', after, status, fun fuel hfuel => hparse fuel (hattempts fuel hfuel), hjudges status hstatus⟩
  | none =>
      refine absurd (plain_scene middle ?_) (hunsure hstatus)
      rcases hsame with rfl | ⟨rfl, -, hexact⟩
      · exact Or.inl rfl
      · rcases hsure with h | rfl | h
        · cases (hexact hstatus).symm.trans h
        · exact Or.inl rfl
        · exact Or.inr h

theorem parse_judges {table : SyntaxTable} {passThrough : List String}
    (he : ∀ reparse, Setting.Exact ⟨table, passThrough, document, reparse⟩) (hmode : table.graph.mode ≠ .lr0)
    (htable : parser.table = table) (hpass : parser.passThrough = passThrough)
    (hexact : parser.exactErrors = true ∨ reparse = true) (hstands : document.Stands store forest)
    (hset : forest.Settled (Setting.Whole ⟨table, passThrough, document, false⟩ false)) :
    ∃ least parser' after status,
      (∀ fuel, least ≤ fuel → parser.parse fuel store document reparse = some (parser', after, .ok status)) ∧
      Judges table (Setting.input ⟨table, passThrough, document, false⟩ forest.tokens) document forest after
        status :=
  parse_judges_of_sure he hmode htable hpass (hexact.imp_right Or.inl) hstands hset

end Parser

-- Whether two parses end alike: both accept with the same tree, or both reject at the
-- same place of the tokens and the end of the input.
inductive Document.EndsAlike (document : Document) (store : Store) (other : Document) (fresh : Store) :
    Store × ParseStatus → Store × ParseStatus → Prop where
  | accepted {after after' : Store} :
      after.snapshot document.root = after'.snapshot other.root →
      EndsAlike document store other fresh (after, .accepted) (after', .accepted)
  | rejected {after after' : Store} {place node node' : Nat} :
      (document.content store ++ [document.eos])[place]? = some node →
      (other.content fresh ++ [other.eos])[place]? = some node' →
      EndsAlike document store other fresh (after, .rejected node) (after', .rejected node')

-- The leaf parser takes one way only.
theorem Judges.endsAlike {table : SyntaxTable} {input : List Leaf} {document other : Document}
    {store fresh after after' : Store} {forest forest' : Forest} {status status' : ParseStatus}
    (hj : Judges table input document forest after status) (hj' : Judges table input other forest' after' status')
    (hs : document.Stands store forest) (hs' : other.Stands fresh forest') :
    document.EndsAlike store other fresh (after, status) (after', status') := by
  cases hj with
  | accepted hsteps haccepts hstands hcopies =>
      cases hj' with
      | accepted hsteps' haccepts' hstands' hcopies' =>
          obtain rfl := (hsteps.to_last hsteps' haccepts.next).eq_of_halted haccepts'.next
          refine .accepted ?_
          rw [hstands.snapshot_root, hstands'.snapshot_root, hcopies, hcopies']
      | rejected hsteps' hhalts' hnot' =>
          obtain rfl := (hsteps.to_last hsteps' haccepts.next).eq_of_halted hhalts'
          exact absurd haccepts hnot'
  | rejected hsteps hhalts hnot hplace hnode =>
      cases hj' with
      | accepted hsteps' haccepts' _ _ =>
          obtain rfl := (hsteps.to_last hsteps' hhalts).eq_of_halted haccepts'.next
          exact absurd haccepts' hnot
      | rejected hsteps' hhalts' hnot' hplace' hnode' =>
          obtain rfl := (hsteps.to_last hsteps' hhalts).eq_of_halted hhalts'
          obtain rfl := Nat.add_right_cancel (hplace.trans hplace'.symm)
          rw [← hs.content] at hnode
          rw [← hs'.content] at hnode'
          exact .rejected hnode hnode'

namespace Document

variable {document : Document} {store : Store}

-- Settings of a table whose grammar knows nothing that is passed through.
theorem strict_setting {grammar : Grammar} {mode : Mode} (hb : grammar.Built)
    (hwild : grammar.toRules.Avoids Symbol.isWildcard) {passThrough : List String}
    (hapart : ∀ symbol ∈ grammar.symbols, symbol ≠ .epsilon → symbol.name ∉ passThrough) (document : Document)
    (reparse : Bool) : Setting.Strict ⟨.ofGrammar grammar mode, passThrough, document, reparse⟩ := by
  have hw := hb.wellFormed
  have hf := faithful_build hw mode
  have hname : ∀ {id : Nat} {symbol : Symbol}, grammar.symbols[id]? = some symbol → symbol ≠ .epsilon →
      passThrough.contains symbol.name = false := by
    intro id symbol hsymbol hne
    rw [List.contains_eq_mem, decide_eq_false_iff_not]
    exact hapart symbol (Array.mem_of_getElem? hsymbol) hne
  refine ⟨⟨⟨rfl, hw, hf, fun id hid => ?_⟩, .inr fun label id ht hid => ?_,
    .inr (lookup?_wildcard_of_avoids hw hf hwild rfl)⟩, ?_⟩
  · have hlt := List.mem_range.mp (List.mem_filter.mp (Rules.mem_nonterminals.mpr hid)).1
    refine hname (Rules.getElem?_of_lt hlt) fun he => ?_
    rw [show (SyntaxTable.ofGrammar grammar mode).grammar.symbol id = .epsilon from he] at hid
    cases hid
  · obtain ⟨name, hkey⟩ := ht.key
    have hid := hw.symbolId?_eq_some.mp hid
    rw [hkey] at hid
    rw [Setting.passes_of_isToken ht, hkey]
    exact hname hid Symbol.noConfusion
  · rw [Setting.passes, Bool.or_eq_false_iff]
    exact ⟨rfl, hname hw.finish Symbol.noConfusion⟩

-- The same for a table without conflicts.
theorem exact_setting {grammar : Grammar} {mode : Mode} (hb : grammar.Built)
    (hfinish : grammar.toRules.Avoids (· == .finish)) (hwild : grammar.toRules.Avoids Symbol.isWildcard)
    (hconflicts : (SyntaxTable.ofGrammar grammar mode).conflicts = []) {passThrough : List String}
    (hapart : ∀ symbol ∈ grammar.symbols, symbol ≠ .epsilon → symbol.name ∉ passThrough) (document : Document)
    (reparse : Bool) : Setting.Exact ⟨.ofGrammar grammar mode, passThrough, document, reparse⟩ := by
  have hstrict := @strict_setting _ mode hb hwild _ hapart document reparse
  exact ⟨hstrict.toApt, ⟨hb.wellFormed, faithful_build hb.wellFormed mode, hfinish, hwild, hconflicts⟩, hstrict.closing⟩

-- Incremental parsing equals parsing from scratch: after any session a parse that may
-- reuse the tree ends like one of a flat document with the same tokens.
theorem parse_endsAlike_afresh {grammar : Grammar} {mode : Mode} (hb : grammar.Built) (hmode : mode ≠ .lr0)
    (hfinish : grammar.toRules.Avoids (· == .finish)) (hwild : grammar.toRules.Avoids Symbol.isWildcard)
    (hconflicts : (SyntaxTable.ofGrammar grammar mode).conflicts = []) {passThrough : List String}
    (hapart : ∀ symbol ∈ grammar.symbols, symbol ≠ .epsilon → symbol.name ∉ passThrough)
    (hs : Session (.ofGrammar grammar mode) passThrough document store) {parser fresh : Parser}
    (htable : parser.table = .ofGrammar grammar mode) (hpass : parser.passThrough = passThrough)
    (hexact : parser.exactErrors = true) (hfresh : fresh.table = .ofGrammar grammar mode)
    (hfreshpass : fresh.passThrough = passThrough) (other : Store) :
    let flat := ofLeaves other (document.contents store)
    ∃ least parser' after status fresh' after' status',
      (∀ fuel, least ≤ fuel →
        parser.parse fuel store document false = some (parser', after, .ok status) ∧
        fresh.parse fuel flat.1 flat.2 true = some (fresh', after', .ok status')) ∧
      document.EndsAlike store flat.2 flat.1 (after, status) (after', status') := by
  have he := exact_setting hb hfinish hwild hconflicts hapart
  obtain ⟨forest, hstands, hset, -⟩ := hs.rests fun reparse => (he document reparse).toApt
  have hlabels := hstands.contents
  have hcontents : ∀ content ∈ document.contents store, (Label.ofContent content).IsToken := by
    intro content h
    have hmem := List.mem_map_of_mem (f := Label.ofContent) h
    rw [hlabels] at hmem
    obtain ⟨entry, hentry, hlabel⟩ := List.mem_map.mp hmem
    exact hlabel ▸ Forest.isToken_tokens.mpr hstands.tokens entry hentry
  have hflat := stands_ofLeaves other hcontents
  have hmode' : (SyntaxTable.ofGrammar grammar mode).graph.mode ≠ .lr0 := by
    rw [show (SyntaxTable.ofGrammar grammar mode).graph.mode = mode from mode_build grammar mode]
    exact hmode
  obtain ⟨least, parser', after, status, hparse, hjudges⟩ :=
    Parser.parse_judges (he document) hmode' htable hpass (Or.inl hexact) hstands hset
  obtain ⟨most, fresh', after', status', hparse', hjudges'⟩ :=
    Parser.parse_judges (he _) hmode' hfresh hfreshpass (Or.inr rfl) hflat Forest.settled_ofLeaves
  refine ⟨max least most, parser', after, status, fresh', after', status', fun fuel hfuel => ?_, ?_⟩
  · exact ⟨hparse fuel (Nat.le_trans (Nat.le_max_left _ _) hfuel),
      hparse' fuel (Nat.le_trans (Nat.le_max_right _ _) hfuel)⟩
  · refine hjudges.endsAlike ?_ hstands hflat
    have htokens : (Forest.ofLeaves (enumerate (other.size + 2) (document.contents store))).tokens.map Prod.snd =
        forest.tokens.map Prod.snd := by
      rw [Forest.tokens, Forest.leaves_ofLeaves, List.map_map, ← hlabels]
      have hsame := congrArg (List.map Label.parsed)
        (@enumerate_labels (other.size + 2) (document.contents store))
      rw [List.map_map, List.map_map] at hsame
      exact hsame
    rw [Setting.input_of_tokens htokens.symm]
    exact hjudges'

theorem parse_endsAlike_afresh_crossed :
    ∃ store,
      (Rules.crossed.toGrammar.Built ∧ Mode.lr1 ≠ .lr0 ∧ Rules.crossed.Avoids (· == .finish) ∧
        Rules.crossed.Avoids Symbol.isWildcard ∧
        (SyntaxTable.ofGrammar Rules.crossed.toGrammar .lr1).conflicts = [] ∧
        (∀ symbol ∈ Rules.crossed.symbols, symbol ≠ .epsilon → symbol.name ∉ ([] : List String)) ∧
        Session (.ofGrammar Rules.crossed.toGrammar .lr1) [] Document.crossed.2 store ∧
        Parser.crossed.exactErrors = true) ∧
      let flat := ofLeaves .empty (Document.crossed.2.contents store)
      ∃ least parser' after status fresh' after' status',
        (∀ fuel, least ≤ fuel →
          Parser.crossed.parse fuel store Document.crossed.2 false = some (parser', after, .ok status) ∧
          Parser.crossed.parse fuel flat.1 flat.2 true = some (fresh', after', .ok status')) ∧
        Document.crossed.2.EndsAlike store flat.2 flat.1 (after, status) (after', status') := by
  obtain ⟨store, -, -, hsession, -⟩ := session_crossed
  exact ⟨store, ⟨built_crossed, nofun, Rules.avoids_of_all rfl, Rules.avoids_of_all rfl, rfl,
      fun _ _ _ => List.not_mem_nil, hsession, rfl⟩,
    parse_endsAlike_afresh built_crossed (show Mode.lr1 ≠ .lr0 from nofun) (Rules.avoids_of_all rfl) (Rules.avoids_of_all rfl) rfl
      (fun _ _ _ => List.not_mem_nil) hsession rfl rfl rfl rfl rfl .empty⟩

end Document

end IncrementalLR
