import IncrementalLR.Proofs.Document.Consistency
import IncrementalLR.Proofs.Document.PassThrough
import IncrementalLR.Proofs.Parse.Forcing

namespace IncrementalLR

-- A reader of leaves and of the end of the input.
def Reader.ofContents (contents : List (Symbol × Option String × String)) : Reader :=
  ⟨[], contents.map Label.ofContent ++ [Document.eosLabel]⟩

namespace Document

-- What becomes of a document where a reader of its leaves has come to an end.
inductive EndsWith (table : SyntaxTable) (passThrough : List String) (document : Document) (store : Store)
    (reader : Reader) : Store × Except Fault ParseStatus → Prop where
  | accepted {after : Store} :
      reader.turn table passThrough = .accept →
      after.snapshot document.root = .ofRoot (reader.shelves.reverse.flatMap Shelf.copies) →
      EndsWith table passThrough document store reader (after, .ok .accepted)
  | rejected {after : Store} {place node : Nat} :
      reader.turn table passThrough = .reject →
      place + reader.labels.length = (document.contents store).length + 1 →
      (document.content store ++ [document.eos])[place]? = some node →
      EndsWith table passThrough document store reader (after, .ok (.rejected node))
  | failed {after : Store} :
      reader.turn table passThrough = .fail →
      EndsWith table passThrough document store reader (after, .error (.malformedRoot document.root))

-- Whether two parses end alike: both accept with the same tree, or both reject at the same
-- place of the tokens and the end of the input, or both fail for want of anything behind
-- the end of the input.
inductive ConcludesAlike (document : Document) (store : Store) (other : Document) (fresh : Store) :
    Store × Except Fault ParseStatus → Store × Except Fault ParseStatus → Prop where
  | ended {after after' : Store} {status status' : ParseStatus} :
      document.EndsAlike store other fresh (after, status) (after', status') →
      ConcludesAlike document store other fresh (after, .ok status) (after', .ok status')
  | failed {after after' : Store} :
      ConcludesAlike document store other fresh (after, .error (.malformedRoot document.root))
        (after', .error (.malformedRoot other.root))

variable {table : SyntaxTable} {passThrough : List String} {document other : Document} {store fresh : Store}
  {reader : Reader} {result result' : Store × Except Fault ParseStatus}

theorem EndsWith.isEnd (he : document.EndsWith table passThrough store reader result) :
    (reader.turn table passThrough).isEnd = true := by
  cases he with
  | accepted h _ => rw [h]; rfl
  | rejected h _ _ => rw [h]; rfl
  | failed h => rw [h]; rfl

theorem EndsWith.alike (he : document.EndsWith table passThrough store reader result)
    (he' : other.EndsWith table passThrough fresh reader result')
    (hlength : (other.contents fresh).length = (document.contents store).length) :
    document.ConcludesAlike store other fresh result result' := by
  cases he with
  | accepted h hcopy =>
      cases he' with
      | accepted h' hcopy' => exact .ended (.accepted (hcopy.trans hcopy'.symm))
      | rejected h' _ _ => cases h.symm.trans h'
      | failed h' => cases h.symm.trans h'
  | rejected h hplace hnode =>
      cases he' with
      | accepted h' _ => cases h.symm.trans h'
      | rejected h' hplace' hnode' =>
          rw [hlength] at hplace'
          obtain rfl := Nat.add_right_cancel (hplace.trans hplace'.symm)
          exact .ended (.rejected hnode hnode')
      | failed h' => cases h.symm.trans h'
  | failed h =>
      cases he' with
      | accepted h' _ => cases h.symm.trans h'
      | rejected h' _ _ => cases h.symm.trans h'
      | failed h' => exact .failed

end Document

namespace Setting

open Document

variable {setting : Setting} {grammar : Grammar} {graph : StateGraph} {store : Store} {first last : Label}
  {content : Forest} {metrics : Metrics}

section Framed

variable (hw : grammar.toRules.WellFormed) (htable : setting.table = .build graph grammar)
  (hp : store.Planted setting.document.root (setting.document.framed first last content))
  (hends : first.parsed = bosLabel ∧ last.parsed = eosLabel) (hinner : ∀ entry ∈ content.leaves, entry.2.symbol ≠ .finish)

include hw htable hp hends hinner

omit hw htable hinner in
theorem reader_of_framed : Scene.reader ⟨[], content ++ .leaf setting.document.eos last .nil, store.size, false, false⟩ =
    Reader.ofContents (setting.document.contents store) := by
  rw [Scene.reader, Forest.tokens_append, List.map_append, Reader.ofContents, contents_of_framed hp, ← hends.2]
  rfl

-- What a parse leaves of a document where it ends as a reader of the leaves does.
theorem endsWith_of_endsAsRead {run : Run} {after : Store} {outcome : Except Fault Outcome}
    (he : EndsAsRead setting setting.document.root (.leaf setting.document.bos first .nil)
      ⟨[], content ++ .leaf setting.document.eos last .nil, store.size, false, false⟩ (run, outcome))
    (hafter : outcome = .ok .accepted → after = run.store) (hoff : ∀ fault, outcome = .error fault → fault.OffStack) :
    ∃ count reader,
      (Reader.ofContents (setting.document.contents store)).Reads setting.table setting.passThrough count reader ∧
      setting.document.EndsWith setting.table setting.passThrough store reader (after, outcome.map Outcome.status) := by
  have hfinish : last.symbol = .finish := (congrArg Label.symbol hends.2 : last.parsed.symbol = _)
  rw [← reader_of_framed hp hends]
  generalize hresult : (run, outcome) = result at he
  cases he with
  | @accepted run' other count hr hreads hturn haccepts hshows =>
      obtain ⟨rfl, rfl⟩ := Prod.mk.inj hresult
      have hcloses : ClosesWith (setting.document.eos, last) other := ClosesWith.reachable hfinish ⟨content, rfl⟩ hr
      obtain ⟨hahead, -⟩ := ahead_of_accepts hw htable hcloses hinner (@Reachable.tokens _ .nil _ _ hr) haccepts
      refine ⟨count, other.reader, hreads, .accepted hturn ?_⟩
      rw [hafter rfl, snapshot_of_framed (planted_accept hshows hahead).1 hends.1 hends.2, ← Piece.copies_shelves]
      rfl
  | @rejected run' other count id state label after hr hreads hturn hahead =>
      obtain ⟨rfl, rfl⟩ := Prod.mk.inj hresult
      have htokens : (Piece.contents .nil other.pieces ++ other.ahead).tokens =
          (content ++ .leaf setting.document.eos last .nil).tokens := @Reachable.tokens _ .nil _ _ hr
      have hlength : (Piece.contents .nil other.pieces).leaves.length + other.reader.labels.length =
          (setting.document.contents store).length + 1 := by
        have hcontents := congrArg List.length (contents_of_framed hp)
        have hall := congrArg List.length htokens
        simp only [Forest.tokens, Forest.leaves_append, Forest.leaves, List.length_append, List.length_map,
          List.length_cons, List.length_nil, Scene.reader] at hcontents hall ⊢
        omega
      rw [hahead] at htokens
      have hnode := getElem?_of_tokens htokens
      rw [← content_of_framed hp] at hnode
      exact ⟨count, other.reader, hreads, .rejected hturn hlength hnode⟩
  | @failed run' other count fault hreads hturn hfault =>
      obtain ⟨rfl, rfl⟩ := Prod.mk.inj hresult
      rw [hfault (hoff fault rfl)]
      exact ⟨count, other.reader, hreads, .failed hturn⟩

-- An attempt that takes all trees apart, whatever they are, comes to an end with a reader
-- of the leaves, unless the limit on steps cuts it short.
theorem attempt_endsWith (ha : setting.table.OfAutomaton) (hreparse : setting.reparse = true)
    (hsettles : (Reader.ofContents (setting.document.contents store)).Settles setting.table setting.passThrough)
    (metrics : Metrics) :
    ∃ least after metrics' outcome,
      (∀ fuel, least ≤ fuel → setting.attempt fuel store metrics = some (after, metrics', outcome)) ∧
      (∀ node state, outcome ≠ .ok (.rejected node state true)) ∧
      ((∀ steps, outcome ≠ .error (.noProgress steps)) → ∃ count reader,
        (Reader.ofContents (setting.document.contents store)).Reads setting.table setting.passThrough count reader ∧
        setting.document.EndsWith setting.table setting.passThrough store reader (after, outcome.map Outcome.status)) := by
  obtain ⟨bound, hbound⟩ := hsettles
  obtain ⟨next, hnext, hhead⟩ := exists_following_of_framed hp
  have hfinish : last.symbol = .finish := (congrArg Label.symbol hends.2 : last.parsed.symbol = _)
  have hrules : setting.table.grammar.toRules.WellFormed := htable ▸ hw
  have hforced : Scene.Unshifted ⟨[], content ++ .leaf setting.document.eos last .nil, store.size, false, false⟩
      (setting.document.eos, last) := ⟨rfl, rfl, hfinish, content, rfl⟩
  have hwithin : (Scene.reader ⟨[], content ++ .leaf setting.document.eos last .nil, store.size, false, false⟩).Within
      setting.table setting.passThrough bound := by
    rw [reader_of_framed hp hends]
    exact hbound
  obtain ⟨⟨run, outcome⟩, hdrive, hresult⟩ :=
    @drive_endsAsRead setting _ 1 next bound _ _ _ _ (shows_of_framed hp { metrics with attempts := metrics.attempts + 1 })
      hhead hforced hreparse hrules hwithin
  obtain ⟨after, hafter, hof⟩ := @Setting.exists_attempt_of_drive setting run store metrics next outcome hnext
  have hattempt : ∀ fuel, 16 * (store.size + bound) + 1026 ≤ fuel →
      setting.attempt fuel store metrics = some (after, run.metrics, outcome) := by
    intro fuel hfuel
    obtain ⟨fuel, rfl⟩ := Nat.exists_eq_add_of_le' (show 1 ≤ fuel by omega)
    exact hof _ (hdrive fuel (show 16 * (store.size + bound) + 1025 ≤ 1 + fuel by omega))
  refine ⟨_, after, run.metrics, outcome, hattempt, ?_, fun hsteps => ?_⟩
  · rintro node state rfl
    rcases hresult with he | ⟨_, _, h⟩
    · generalize hlast : (run, (Except.ok (Outcome.rejected node state true) : Except Fault Outcome)) = result at he
      cases he with
      | accepted => cases hlast
      | rejected => cases hlast
      | failed => cases hlast
    · cases h
  · rcases hresult with he | ⟨_, steps, h⟩
    · refine endsWith_of_endsAsRead hw htable hp hends hinner he hafter ?_
      rintro fault rfl
      exact offStack_attempt ha (hattempt _ (Nat.le_refl _))
    · exact absurd (congrArg Prod.snd h) (hsteps steps)

-- An attempt that has shifted no tree whole has come to the end of the reader as well.
theorem endsWith_of_unshifted {fuel : Nat} {after : Store} {metrics' : Metrics} {outcome : Except Fault Outcome}
    (ha : setting.table.OfAutomaton) (h : setting.attempt fuel store metrics = some (after, metrics', outcome))
    (hkept : setting.reparse = true ∨ metrics'.optimisticShifts = metrics.optimisticShifts)
    (hsteps : ∀ steps, outcome ≠ .error (.noProgress steps)) :
    ∃ count reader,
      (Reader.ofContents (setting.document.contents store)).Reads setting.table setting.passThrough count reader ∧
      setting.document.EndsWith setting.table setting.passThrough store reader (after, outcome.map Outcome.status) := by
  obtain ⟨next, hnext, hhead⟩ := exists_following_of_framed hp
  have hfinish : last.symbol = .finish := (congrArg Label.symbol hends.2 : last.parsed.symbol = _)
  obtain ⟨run, hdrive, rfl, hafter⟩ := drive_of_following hnext h
  have hends' := @endsAsRead_of_unshifted setting _ 1 next _ _ _ (setting.document.eos, last) (run, outcome) fuel
    (shows_of_framed hp { metrics with attempts := metrics.attempts + 1 }) hhead ⟨rfl, rfl, hfinish, content, rfl⟩
    (htable ▸ hw) hdrive hkept
  rcases hends' with he | ⟨_, steps, hcut⟩
  · refine endsWith_of_endsAsRead hw htable hp hends hinner he hafter ?_
    rintro fault rfl
    exact offStack_attempt ha h
  · exact absurd (congrArg Prod.snd hcut) (hsteps steps)

end Framed

end Setting

namespace Document

variable {grammar : Grammar} {mode : Mode} {passThrough : List String} {parser : Parser} {document : Document}
  {store : Store} {forest : Forest} {contents : List (Symbol × Option String × String)}

-- A parse that reuses nothing ends with a reader of the leaves, whatever trees they are in.
theorem Threaded.parse_endsWith (hb : grammar.Built) (htable : parser.table = .ofGrammar grammar mode)
    (hpass : parser.passThrough = passThrough) (ht : document.Threaded store forest)
    (hsettles : (Reader.ofContents (document.contents store)).Settles (.ofGrammar grammar mode) passThrough) :
    ∃ least parser' after outcome,
      (∀ fuel, least ≤ fuel → parser.parse fuel store document true = some (parser', after, outcome)) ∧
      ((∀ steps, outcome ≠ .error (.noProgress steps)) → ∃ count reader,
        (Reader.ofContents (document.contents store)).Reads (.ofGrammar grammar mode) passThrough count reader ∧
        document.EndsWith (.ofGrammar grammar mode) passThrough store reader (after, outcome)) := by
  obtain ⟨first, last, content, hforest, hends, hinner⟩ := ht.frames
  have hp : store.Planted document.root (document.framed first last content) := hforest ▸ ht.toPlanted
  have hautomaton : parser.table.OfAutomaton := htable ▸ SyntaxTable.ofAutomaton_ofGrammar hb mode
  rw [← htable, ← hpass] at hsettles ⊢
  obtain ⟨least, after, metrics, outcome, hattempt, hsure, hread⟩ :=
    @Setting.attempt_endsWith (parser.setting document true) grammar (.build grammar mode) store first last content
      hb.wellFormed htable hp hends hinner hautomaton rfl hsettles default
  obtain ⟨parser', hparse⟩ := @Parser.exists_parse_of_attempt parser document store after true metrics outcome hsure
  refine ⟨least, parser', after, _, fun fuel hfuel => hparse fuel (hattempt fuel hfuel), fun hsteps => ?_⟩
  refine hread fun steps h => hsteps steps ?_
  rw [h]
  rfl

theorem Threaded.contents_plain (ht : document.Threaded store forest) :
    ∀ content ∈ document.contents store, content.1.isNonterminal = false ∧ content.1 ≠ .finish := by
  obtain ⟨first, last, content, rfl, -, hinner⟩ := ht.frames
  intro made hmade
  have hlabel : Label.ofContent made ∈ content.tokens.map Prod.snd :=
    contents_of_framed ht.toPlanted ▸ List.mem_map_of_mem hmade
  rw [Forest.tokens, List.map_map, List.mem_map] at hlabel
  obtain ⟨entry, hentry, he⟩ := hlabel
  have hsymbol : entry.2.symbol = made.1 := congrArg Label.symbol he
  have hmem : entry ∈ (document.framed first last content).leaves := by
    rw [framed, Forest.leaves, Forest.leaves_append]
    exact List.mem_cons_of_mem _ (List.mem_append_left _ hentry)
  rw [← hsymbol]
  exact ⟨(ht.linked.kept.leaf hmem).2.2, hinner entry hentry⟩

-- A flat document has the leaves that it is made of.
theorem contents_ofLeaves (store : Store)
    (hleaf : ∀ content ∈ contents, content.1.isNonterminal = false ∧ content.1 ≠ .finish) :
    ((ofLeaves store contents).2.contents (ofLeaves store contents).1).map Label.ofContent =
      contents.map Label.ofContent := by
  have hp := (threaded_ofLeaves store hleaf).toPlanted
  have hframed : (ofLeaves store contents).1.Planted (ofLeaves store contents).2.root
    ((ofLeaves store contents).2.framed bosLabel eosLabel (.ofLeaves (enumerate (store.size + 2) contents))) := hp
  rw [contents_of_framed hframed, Forest.tokens, Forest.leaves_ofLeaves, List.map_map, ← @enumerate_labels (store.size + 2)]
  refine List.map_congr_left fun entry h => ?_
  obtain ⟨content, -, he⟩ := mem_enumerate h
  rw [Function.comp_apply, he]
  rfl

end Document

namespace Arena

open Document

variable {documents : List Document} {store : Store} {document : Document} {grammar : Grammar} {mode : Mode}
  {passThrough : List String} {parser other : Parser}

-- A parse that reuses nothing depends on the leaves of the document alone: whatever its tree
-- has become, it ends as that of a flat document of the same leaves, unless the limit on
-- steps cuts one of them short. Conflicts, wildcards and names that are passed through make
-- no difference, as long as there are only so many reductions.
theorem parse_reparse_alike (ha : Arena documents store) (hd : document ∈ documents)
    (hexisted : (store.node document.root).history.existedAt store.version = true) (hb : grammar.Built)
    (htable : parser.table = .ofGrammar grammar mode) (htable' : other.table = .ofGrammar grammar mode)
    (hpass : parser.passThrough = passThrough) (hpass' : other.passThrough = passThrough)
    (hsettles : (Reader.ofContents (document.contents store)).Settles (.ofGrammar grammar mode) passThrough)
    (fresh : Store) :
    let flat := ofLeaves fresh (document.contents store)
    ∃ least parser' after outcome other' after' outcome',
      (∀ fuel, least ≤ fuel →
        parser.parse fuel store document true = some (parser', after, outcome) ∧
        other.parse fuel flat.1 flat.2 true = some (other', after', outcome')) ∧
      ((∀ steps, outcome ≠ .error (.noProgress steps)) → (∀ steps, outcome' ≠ .error (.noProgress steps)) →
        document.ConcludesAlike store flat.2 flat.1 (after, outcome) (after', outcome')) := by
  intro flat
  obtain ⟨region, hh⟩ := ha.houses
  have ho := hh.owns document hd
  obtain ⟨forest, ht, -⟩ := ho.alive (ho.existed.mpr (beq_iff_eq.mp hexisted))
  have hplain := ht.contents_plain
  have hcontents := contents_ofLeaves fresh hplain
  have hreader : Reader.ofContents (flat.2.contents flat.1) = Reader.ofContents (document.contents store) := by
    rw [Reader.ofContents, hcontents, Reader.ofContents]
  have hlength := congrArg List.length hcontents
  rw [List.length_map, List.length_map] at hlength
  obtain ⟨least, parser', after, outcome, hparse, hread⟩ := ht.parse_endsWith hb htable hpass hsettles
  obtain ⟨most, other', after', outcome', hparse', hread'⟩ :=
    (threaded_ofLeaves fresh hplain).parse_endsWith hb htable' hpass' (hreader ▸ hsettles)
  refine ⟨max least most, parser', after, outcome, other', after', outcome', fun fuel hfuel => ?_, fun hsteps hsteps' => ?_⟩
  · exact ⟨hparse fuel (Nat.le_trans (Nat.le_max_left _ _) hfuel),
      hparse' fuel (Nat.le_trans (Nat.le_max_right _ _) hfuel)⟩
  · obtain ⟨count, reader, hreads, hends⟩ := hread hsteps
    obtain ⟨count', reader', hreads', hends'⟩ := hread' hsteps'
    rw [hreader] at hreads'
    obtain rfl := hreads.unique hreads' hends.isEnd hends'.isEnd
    exact hends.alike hends' hlength

-- A document with a wildcard and with a token that is passed through, of an ambiguous
-- grammar. It is parsed, one of its tokens is replaced, and then the version of before is
-- gone back to, which has the tree of the parse.
theorem parse_reparse_alike_chained :
    ∃ store, Arena [Document.chained.2] store ∧
      (store.node Document.chained.2.root).history.existedAt store.version = true ∧
      Rules.chained.toGrammar.Built ∧ Parser.chained.table.conflicts ≠ [] ∧
      (store.node Document.chained.2.root).children.length = 4 ∧
      (Reader.ofContents (Document.chained.2.contents store)).Settles (.ofGrammar Rules.chained.toGrammar .lalr) ["_"] ∧
      let flat := ofLeaves .empty (Document.chained.2.contents store)
      ∃ parser' after other' after',
        Parser.chained.parse 100 store Document.chained.2 true = some (parser', after, .ok .accepted) ∧
        Parser.chained.parse 100 flat.1 flat.2 true = some (other', after', .ok .accepted) ∧
        Document.chained.2.ConcludesAlike store flat.2 flat.1 (after, .ok .accepted) (after', .ok .accepted) := by
  have hsteps : ((Parser.chained.parse 100 Document.chained.1 Document.chained.2 false).bind fun first =>
      (Document.chained.2.undoTo? (Document.replaceToken first.2.1.commit 4 none ".").commit
        first.2.1.commit.version).map fun store =>
          let flat := ofLeaves .empty (Document.chained.2.contents store)
          ((decide (4 ∈ Document.chained.2.tokens first.2.1.commit) &&
              decide ((Parser.chained.parse 100 store Document.chained.2 true).map (·.2.2) = some (.ok .accepted)) &&
              decide ((Parser.chained.parse 100 flat.1 flat.2 true).map (·.2.2) = some (.ok .accepted)),
            (store.node Document.chained.2.root).history.existedAt store.version,
            (store.node Document.chained.2.root).children.length), Document.chained.2.contents store)) =
      some ((true, true, 4), [(.terminal "_", none, "_"), (.terminal "a", none, "a"), (.terminal ";", none, ";"),
        (.terminal "x", none, "x"), (.terminal "!", none, "!")]) := by
    decide +kernel
  obtain ⟨⟨parser, parsed, status⟩, hparse, hrest⟩ := Option.bind_eq_some_iff.mp hsteps
  obtain ⟨store, hundo, hrest⟩ := Option.map_eq_some_iff.mp hrest
  simp only [Prod.mk.injEq, Bool.and_eq_true, decide_eq_true_eq] at hrest
  obtain ⟨⟨⟨⟨htokens, hforced⟩, hflat⟩, hexisted, hchildren⟩, hcontents⟩ := hrest
  have hopened : Arena [Document.chained.2] Document.chained.1 := by
    rw [Document.chained]
    exact @Arena.edit [] .empty _ (.create _) .empty trivial rfl
  have hrun : (Edit.parse Parser.chained 100 Document.chained.2 false).run Document.chained.1 = some parsed := by
    rw [Edit.run, hparse]
    rfl
  have hfits : (Edit.parse Parser.chained 100 Document.chained.2 false).Fits [Document.chained.2] Document.chained.1 :=
    ⟨List.mem_singleton_self _, _, _, built_chained, rfl⟩
  have hparsed : Arena [Document.chained.2] parsed := hopened.edit hfits hrun
  have hreplaced : Arena [Document.chained.2] (Document.replaceToken parsed.commit 4 none ".") :=
    @Arena.edit _ _ _ (.replace 4 none ".") hparsed.commit
      ⟨_, List.mem_singleton_self _, htokens⟩ rfl
  have harena : Arena [Document.chained.2] store := hreplaced.commit.undo hundo
  have hsettles : (Reader.ofContents (Document.chained.2.contents store)).Settles
      (.ofGrammar Rules.chained.toGrammar .lalr) ["_"] := by
    rw [hcontents]
    exact ⟨30, Reader.within_of_ends (by decide +kernel)⟩
  obtain ⟨⟨parser', after, -⟩, hended, rfl⟩ := Option.map_eq_some_iff.mp hforced
  obtain ⟨⟨other', after', -⟩, hended', rfl⟩ := Option.map_eq_some_iff.mp hflat
  obtain ⟨least, _, _, _, _, _, _, hresults, halike⟩ :=
    @parse_reparse_alike _ _ _ _ _ _ Parser.chained Parser.chained harena (List.mem_singleton_self _) hexisted
      built_chained rfl rfl rfl rfl hsettles .empty
  obtain ⟨hresult, hresult'⟩ := hresults (max least 100) (Nat.le_max_left _ _)
  cases (Parser.parse_of_le (Nat.le_max_right least 100) hended).symm.trans hresult
  cases (Parser.parse_of_le (Nat.le_max_right least 100) hended').symm.trans hresult'
  exact ⟨store, harena, hexisted, built_chained, by decide +kernel, hchildren, hsettles, parser', after, other', after',
    hended, hended', halike (by rintro _ ⟨⟩) (by rintro _ ⟨⟩)⟩

end Arena

end IncrementalLR
