import IncrementalLR.Proofs.Automaton.Resolution
import IncrementalLR.Proofs.Document.Forcing

namespace IncrementalLR

theorem Setting.attempts_attempt {setting : Setting} {store after : Store} {metrics metrics' : Metrics} {fuel first : Nat}
    {outcome : Except Fault Outcome} (hfirst : store.following? setting.document.bos = some first)
    (h : setting.attempt fuel store metrics = some (after, metrics', outcome)) :
    metrics'.attempts = metrics.attempts + 1 := by
  obtain ⟨run, hdrive, rfl, -⟩ := drive_of_following hfirst h
  exact (tallies_drive ⟨rfl, Nat.zero_le _⟩ hdrive).1

namespace Document

variable {grammar : Grammar} {mode : Mode} {passThrough : List String} {parser parser' : Parser} {document : Document}
  {store after : Store} {forest : Forest} {fuel : Nat} {reparse : Bool} {status : Except Fault ParseStatus}

-- The leaves of a document are what they are made of, whatever marks its nodes have.
theorem Threaded.contents_remarked {other : Store} (ht : document.Threaded store forest)
    (hr : store.Remarked (fun _ => True) other) :
    document.content other = document.content store ∧ document.contents other = document.contents store := by
  have hother := ht.congr (fun id h => hr.size.symm ▸ ht.lt_size id h) fun id _ => hr.attributes
  have hcontent : document.content other = document.content store := by
    rw [Document.content, Document.content, hother.toPlanted.leaves, ht.toPlanted.leaves, Forest.leaves_reflag,
      List.map_map]
    rfl
  refine ⟨hcontent, ?_⟩
  rw [Document.contents, Document.contents, hcontent]
  refine List.map_congr_left fun id _ => ?_
  rw [hr.attributes]

-- A parse whose last attempt shifts no tree whole ends with a reader of the leaves, whatever
-- trees they are in.
theorem Threaded.endsWith_of_unshifted (hb : grammar.Built) (htable : parser.table = .ofGrammar grammar mode)
    (hpass : parser.passThrough = passThrough) (ht : document.Threaded store forest)
    (hp : parser.parse fuel store document reparse = some (parser', after, status))
    (hkept : reparse = true ∨ parser'.metrics.attempts = 2 ∨ parser'.metrics.optimisticShifts = 0)
    (hsteps : ∀ steps, status ≠ .error (.noProgress steps)) :
    ∃ count reader,
      (Reader.ofContents (document.contents store)).Reads (.ofGrammar grammar mode) passThrough count reader ∧
      document.EndsWith (.ofGrammar grammar mode) passThrough store reader (after, status) := by
  obtain ⟨outcome, hattempts, rfl⟩ := Parser.attempts_of_parse hp
  obtain ⟨reparse', middle, earlier, hr, hattempt, hlast⟩ :=
    Parser.attempt_of_attempts (Store.closed_all store) document.within_all hattempts
  have hmiddle := ht.congr (fun id h => hr.size.symm ▸ ht.lt_size id h) fun id _ => hr.attributes
  obtain ⟨first, last, content, hforest, hends, hinner⟩ := hmiddle.frames
  have hplanted : middle.Planted document.root (document.framed first last content) := hforest ▸ hmiddle.toPlanted
  have hkept : reparse' = true ∨ parser'.metrics.optimisticShifts = earlier.optimisticShifts := by
    rcases hlast with hreparse | ⟨rfl, rfl⟩
    · exact Or.inl hreparse
    rcases hkept with rfl | hsecond | hunshifted
    · exact Or.inl rfl
    · obtain ⟨next, hnext, -⟩ := exists_following_of_framed hplanted
      cases hsecond.symm.trans (Setting.attempts_attempt hnext hattempt)
    · exact Or.inr hunshifted
  have hcut : ∀ steps, outcome ≠ .error (.noProgress steps) := by
    rintro steps rfl
    exact hsteps steps rfl
  obtain ⟨count, reader, hreads, hended⟩ :=
    @Setting.endsWith_of_unshifted (parser.setting document reparse') grammar (.build grammar mode) middle first last content
      earlier hb.wellFormed htable hplanted hends hinner fuel after parser'.metrics outcome
      (show parser.table.OfAutomaton from htable ▸ SyntaxTable.ofAutomaton_ofGrammar hb mode) hattempt hkept hcut
  obtain ⟨hcontent, hcontents⟩ := ht.contents_remarked hr
  rw [← htable, ← hpass, ← hcontents]
  refine ⟨count, reader, hreads, ?_⟩
  generalize hresult : (after, outcome.map Outcome.status) = result at hended
  cases hended with
  | accepted hturn hcopy => exact .accepted hturn hcopy
  | rejected hturn hlength hnode => exact .rejected hturn (hcontents ▸ hlength) (hcontent ▸ hnode)
  | failed hturn => exact .failed hturn

end Document

namespace Arena

open Document

variable {documents : List Document} {store after after' : Store} {document : Document} {grammar : Grammar} {mode : Mode}
  {parser parser' forced : Parser} {fuel most : Nat} {status status' : Except Fault ParseStatus}

-- A parse that shifts no tree whole ends as one that takes all trees apart, and so does one
-- that exact errors have checked by a second attempt. This holds whatever conflicts there
-- are, settled or not.
theorem parse_alike_of_unshifted (ha : Arena documents store) (hd : document ∈ documents)
    (hexisted : (store.node document.root).history.existedAt store.version = true) (hb : grammar.Built)
    (htable : parser.table = .ofGrammar grammar mode)
    (hp : parser.parse fuel store document false = some (parser', after, status))
    (hforced : parser.parse most store document true = some (forced, after', status'))
    (hkept : parser'.metrics.attempts = 2 ∨ parser'.metrics.optimisticShifts = 0)
    (hsteps : ∀ steps, status ≠ .error (.noProgress steps)) (hsteps' : ∀ steps, status' ≠ .error (.noProgress steps)) :
    document.ConcludesAlike store document store (after, status) (after', status') := by
  obtain ⟨region, hh⟩ := ha.houses
  have ho := hh.owns document hd
  obtain ⟨forest, ht, -⟩ := ho.alive (ho.existed.mpr (beq_iff_eq.mp hexisted))
  obtain ⟨count, reader, hreads, hends⟩ := ht.endsWith_of_unshifted hb htable rfl hp (Or.inr hkept) hsteps
  obtain ⟨count', reader', hreads', hends'⟩ := ht.endsWith_of_unshifted hb htable rfl hforced (Or.inl rfl) hsteps'
  obtain rfl := hreads.unique hreads' hends.isEnd hends'.isEnd
  exact hends.alike hends' rfl

end Arena

def Parser.contested : Parser := .ofTable (.ofGrammar Rules.contested.toGrammar .lalr) [] true false

def Document.contested : Store × Document :=
  Document.ofTokens .empty [.matched none "x" 0 1, .matched none "<" 1 2, .matched none "x" 2 3]

-- The operator of a comparison is removed once it has been parsed. Its left side is shifted
-- whole and taken back, so that a second attempt checks the rejection.
theorem Arena.parse_alike_of_unshifted_contested :
    ∃ store parser' after forced after', Arena [Document.contested.2] store ∧
      (store.node Document.contested.2.root).history.existedAt store.version = true ∧
      Rules.contested.toGrammar.Built ∧ Parser.contested.table.conflicts ≠ [] ∧ Parser.contested.table.unresolved = [] ∧
      Parser.contested.parse 100 store Document.contested.2 false = some (parser', after, .ok (.rejected 4)) ∧
      Parser.contested.parse 100 store Document.contested.2 true = some (forced, after', .ok (.rejected 4)) ∧
      parser'.metrics.attempts = 2 ∧ parser'.metrics.optimisticShifts = 1 ∧
      Document.contested.2.ConcludesAlike store Document.contested.2 store (after, .ok (.rejected 4))
        (after', .ok (.rejected 4)) := by
  have hsteps : ((Parser.contested.parse 100 Document.contested.1 Document.contested.2 false).bind fun first =>
      ((Edit.remove Document.contested.2 3).run first.2.1.commit).bind fun store =>
        (Parser.contested.parse 100 store Document.contested.2 false).bind fun second =>
          (Parser.contested.parse 100 store Document.contested.2 true).map fun third =>
            ((second.2.2, second.1.metrics.attempts, second.1.metrics.optimisticShifts, third.2.2),
              (first.2.1.commit.node 5).children, (first.2.1.commit.node 10).children,
              (store.node 5).history.existedAt store.version)) =
      some ((.ok (.rejected 4), 2, 1, .ok (.rejected 4)), [0, 10, 1], [7, 3, 9], true) := by
    decide +kernel
  obtain ⟨⟨first, parsed, status⟩, hparse, hrest⟩ := Option.bind_eq_some_iff.mp hsteps
  obtain ⟨store, hremove, hrest⟩ := Option.bind_eq_some_iff.mp hrest
  obtain ⟨⟨parser', after, status'⟩, hp, hrest⟩ := Option.bind_eq_some_iff.mp hrest
  obtain ⟨⟨forced, after', status''⟩, hforced, hrest⟩ := Option.map_eq_some_iff.mp hrest
  simp only [Prod.mk.injEq] at hrest
  obtain ⟨⟨rfl, hattempts, hshifts, rfl⟩, htop, hinner, hexisted⟩ := hrest
  have hopened : Arena [Document.contested.2] Document.contested.1 :=
    @Arena.edit [] .empty _ (.create _) .empty trivial rfl
  have hparsed : Arena [Document.contested.2] parsed :=
    @Arena.edit _ _ parsed (.parse Parser.contested 100 Document.contested.2 false) hopened
      ⟨List.mem_singleton_self _, _, _, built_contested, rfl⟩ (Option.map_eq_some_iff.mpr ⟨_, hparse, rfl⟩)
  have hbelow : parsed.commit.Below 5 3 := .further (.child (show 10 ∈ (parsed.commit.node 5).children by rw [htop]; decide))
    (by rw [hinner]; decide)
  have harena : Arena [Document.contested.2] store :=
    @Arena.edit _ _ store (.remove Document.contested.2 3) hparsed.commit
      ⟨List.mem_singleton_self _, hbelow, by decide, by decide, by decide⟩ hremove
  exact ⟨store, parser', after, forced, after', harena, hexisted, built_contested, by decide +kernel, by decide +kernel, hp,
    hforced, hattempts, hshifts,
    parse_alike_of_unshifted harena (List.mem_singleton_self _) hexisted built_contested rfl hp hforced (Or.inl hattempts)
      nofun nofun⟩

end IncrementalLR
