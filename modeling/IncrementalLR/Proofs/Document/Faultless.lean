import IncrementalLR.Proofs.Automaton.Cache
import IncrementalLR.Proofs.Document.Pointing
import IncrementalLR.Proofs.Document.Termination
import IncrementalLR.Proofs.Grammar.Whitespace
import IncrementalLR.Proofs.Parse.Budget

namespace IncrementalLR

namespace Parser

variable (parser : Parser) (store : Store) (document : Document) (reparse : Bool)

-- The attempts that a parse makes: a second one only if the first one was unsure and
-- errors are to be exact.
inductive Tries : Bool → Store → Metrics → Prop where
  | first : Tries (reparse || parser.reparse) store default
  | second {fuel node state : Nat} {first : Store} {metrics : Metrics} :
      parser.exactErrors = true →
      (parser.setting document (reparse || parser.reparse)).attempt fuel store default =
        some (first, metrics, .ok (.rejected node state true)) → Tries true first metrics

-- Whether the reductions of a parse come to an end.
def Settles : Prop :=
  ∀ again middle metrics, parser.Tries store document reparse again middle metrics →
    (parser.setting document again).Settles middle metrics

variable {parser store document reparse}

-- Reductions have come to an end where a parse has.
theorem settles_of_parse {parser' : Parser} {after : Store} {fuel : Nat} {status : ParseStatus}
    (hp : parser.parse fuel store document reparse = some (parser', after, .ok status)) :
    parser.Settles store document reparse := by
  obtain ⟨outcome, hattempts, hstatus⟩ := attempts_of_parse hp
  obtain ⟨outcome, rfl⟩ : ∃ ended, outcome = .ok ended := by
    cases outcome with
    | error fault => cases hstatus
    | ok outcome => exact ⟨outcome, rfl⟩
  obtain ⟨⟨first, metrics', outcome'⟩, hfirst, hrest⟩ := Option.bind_eq_some_iff.mp hattempts
  rintro again middle earlier (_ | ⟨hexact, hunsure⟩)
  · cases outcome' with
    | error fault => cases hrest
    | ok outcome' => exact Setting.settles_of_attempt hfirst
  · rename_i fuel' node state
    have hsame := (Setting.attempt_of_le (Nat.le_max_left fuel fuel') hfirst).symm.trans
      (Setting.attempt_of_le (Nat.le_max_right fuel fuel') hunsure)
    cases hsame
    dsimp only at hrest
    rw [if_pos hexact] at hrest
    exact Setting.settles_of_attempt hrest

end Parser

-- Whatever the tree of a document, its last leaf alone is an end of input.
theorem Document.Threaded.exists_sheltered {setting : Setting} {store : Store} {forest : Forest}
    (ht : setting.document.Threaded store forest) (ha : setting.table.OfAutomaton) (hspaced : setting.table.Spaced)
    (hfinish : setting.table.grammar.toRules.Avoids (· == .finish)) (hclosing : "eos" ∉ setting.passThrough) :
    ∃ first last content, store.Planted setting.document.root (setting.document.framed first last content) ∧
      setting.Sheltered (setting.document.eos, last) := by
  obtain ⟨first, last, content, hforest, ⟨-, hlast⟩, -⟩ := ht.frames
  refine ⟨first, last, content, hforest ▸ ht.toPlanted, ha, hspaced, hfinish, hlast, ?_⟩
  have hpasses : setting.passes last = setting.passes last.parsed := rfl
  rw [hpasses, hlast, Setting.passes, Bool.or_eq_false_iff, List.contains_eq_mem, decide_eq_false_iff_not]
  exact ⟨rfl, hclosing⟩

-- A text with a wildcard at the end of its only rule.
def Source.trailing : String := "S ::= \"a\" ANY\n"

def Document.trailing : Store × Document :=
  Document.ofTokens .empty [.matched none "_" 0 1, .matched none "a" 1 2]

namespace Arena

variable {documents : List Document} {store : Store} {document : Document} {parser : Parser} {reparse whitespace : Bool}
  {text : String} {source : GrammarSource} {mode : Mode}

-- No parse of a document meets a fault, with wildcards and whatever is passed through, if no
-- wildcard follows right behind another and the end of the input is not passed through. It
-- comes to an end just where its reductions do.
theorem parse_faultless (ha : Arena documents store) (hd : document ∈ documents)
    (hexisted : (store.node document.root).history.existedAt store.version = true)
    (hsource : GrammarSource.parse text whitespace = .ok source) (htable : parser.table = .ofGrammar source.grammar mode)
    (hspaced : parser.table.Spaced) (hclosing : "eos" ∉ parser.passThrough) :
    (∀ fuel parser' after result, parser.parse fuel store document reparse = some (parser', after, result) →
      ∃ status, result = .ok status) ∧
    (parser.Settles store document reparse ↔ ∃ least parser' after status, ∀ fuel, least ≤ fuel →
      parser.parse fuel store document reparse = some (parser', after, .ok status)) := by
  obtain ⟨region, hh⟩ := ha.houses
  have ho := hh.owns document hd
  obtain ⟨forest, ht, -⟩ := ho.alive (ho.existed.mpr (beq_iff_eq.mp hexisted))
  have hautomaton : parser.table.OfAutomaton :=
    htable ▸ SyntaxTable.ofAutomaton_ofGrammar (GrammarSource.built_of_parse hsource) mode
  have hfinish : parser.table.grammar.toRules.Avoids (· == .finish) := htable ▸ Source.avoids_finish_of_parse hsource
  have hsheltered : ∀ again {middle : Store}, store.Remarked (fun _ => True) middle →
      ∃ first last content, middle.Planted document.root (document.framed first last content) ∧
        (parser.setting document again).Sheltered (document.eos, last) := by
    intro again middle hr
    obtain ⟨attempted, hattempted⟩ := ht.remarked hr
    exact @Document.Threaded.exists_sheltered (parser.setting document again) middle attempted hattempted hautomaton
      hspaced hfinish hclosing
  constructor
  · intro fuel parser' after result hp
    obtain ⟨again, middle, earlier, outcome, hr, hattempt, hstatus⟩ :=
      Parser.attempt_of_parse (Store.closed_all store) document.within_all hp
    obtain ⟨first, last, content, hplanted, hs⟩ := hsheltered again hr
    obtain ⟨outcome, rfl⟩ := Setting.attempt_ok hs hplanted hattempt
    exact ⟨_, hstatus⟩
  · refine ⟨fun hsettles => ?_, fun ⟨least, parser', after, status, hp⟩ =>
      Parser.settles_of_parse (hp least (Nat.le_refl _))⟩
    refine @Parser.exists_parse_of_attempts parser document store reparse
      (fun again middle metrics => store.Remarked (fun _ => True) middle ∧
        parser.Tries store document reparse again middle metrics) ?_ ?_ ⟨.refl _ _, .first⟩
    · rintro again middle metrics ⟨hr, htries⟩
      obtain ⟨first, last, content, hplanted, hs⟩ := hsheltered again hr
      exact Setting.attempt_ends hs hplanted (hsettles again middle metrics htries)
    · exact fun hexact hr hattempt => ⟨hr, .second hexact hattempt⟩

-- A wildcard that takes nothing before the end of the input, and a token that is passed through.
theorem parse_faultless_trailing :
    ∃ source parser, (Arena [Document.trailing.2] Document.trailing.1 ∧
        (Document.trailing.1.node Document.trailing.2.root).history.existedAt Document.trailing.1.version = true ∧
        GrammarSource.parse Source.trailing false = .ok source ∧ parser = Parser.ofSource source .lr1 ["_"] true false ∧
        parser.table.Spaced ∧ "eos" ∉ parser.passThrough ∧
        parser.Settles Document.trailing.1 Document.trailing.2 false) ∧
      ∃ least parser' after status, ∀ fuel, least ≤ fuel →
        parser.parse fuel Document.trailing.1 Document.trailing.2 false = some (parser', after, .ok status) := by
  have hchecks : ((GrammarSource.parse Source.trailing false).toOption.any fun source =>
      let parser := Parser.ofSource source .lr1 ["_"] true false
      ((List.range parser.table.rows.size).all fun state =>
        (parser.table.wildcardTargets state).all fun target => (parser.table.wildcardTargets target).isEmpty) &&
      !parser.passThrough.contains "eos" &&
      decide ((parser.parse 100 Document.trailing.1 Document.trailing.2 false).map (fun result =>
        (result.2.2, result.1.metrics.wildcardSpans)) = some (.ok .accepted, 1))) = true := by
    decide +kernel
  obtain ⟨source, hp, hchecks⟩ := Source.exists_of_toOption_any hchecks
  simp only [Bool.and_eq_true, Bool.not_eq_true', decide_eq_true_eq] at hchecks
  obtain ⟨⟨hspaced, hclosing⟩, hrun⟩ := hchecks
  obtain ⟨⟨parser', after, status⟩, hparse, hresult⟩ := Option.map_eq_some_iff.mp hrun
  obtain rfl : status = .ok .accepted := (Prod.mk.inj hresult).1
  have hspaced := SyntaxTable.spaced_of_all hspaced
  rw [List.contains_eq_mem, decide_eq_false_iff_not] at hclosing
  have harena : Arena [Document.trailing.2] Document.trailing.1 := by
    rw [Document.trailing]
    exact @Arena.edit [] .empty _ (.create _) .empty trivial rfl
  have hexisted :
      (Document.trailing.1.node Document.trailing.2.root).history.existedAt Document.trailing.1.version = true := by
    decide +kernel
  have hsettles := Parser.settles_of_parse hparse
  exact ⟨source, _, ⟨harena, hexisted, hp, rfl, hspaced, hclosing, hsettles⟩,
    (parse_faultless harena (List.mem_singleton_self _) hexisted hp rfl hspaced hclosing).2.mp hsettles⟩

end Arena

end IncrementalLR
