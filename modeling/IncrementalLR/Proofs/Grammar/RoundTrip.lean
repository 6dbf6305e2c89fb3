import IncrementalLR.Proofs.Grammar.Printing

namespace IncrementalLR

open Text

namespace Source

section Declared

theorem legible_padding : Legible padding := isName_of_all (by decide)

theorem legible_blank {name : String} (h : name ∈ blankRules) : Legible (.terminal name) := by
  have hsigns : ∀ name ∈ blankRules, '"' ∉ name.toList ∧ '%' ∉ name.toList := by decide
  exact ⟨(hsigns name h).1, unmarked_of_not_mem (hsigns name h).2⟩

-- Whether a rule can be written.
abbrev LegibleRule (rule : NamedRule) : Prop := Throughout (fun name => IsName name.toList) Legible rule

variable {rules : List NamedRule} {lexerRules : List LexerRule} {start : String}

theorem legibleRule_padRule {named : NamedRule} (h : LegibleRule named) : LegibleRule (padRule named) := by
  unfold padRule
  split
  · exact h
  · refine ⟨h.name, by simpa using h.nonempty, ?_⟩
    simp only [List.forall_mem_map]
    intro alternative ha symbol hs
    rcases mem_pad (mem_of_mem_dropBeforeWildcard hs) with hs | rfl
    · exact h.symbols alternative ha symbol hs
    · exact legible_padding

theorem legibleRule_paddingRule : LegibleRule (paddingRule rules lexerRules) := by
  refine ⟨legible_padding, by simp [paddingRule], ?_⟩
  refine List.forall_mem_append.mpr ⟨List.forall_mem_map.mpr fun unit hu => ?_,
    List.forall_mem_singleton.mpr (List.forall_mem_nil _)⟩
  refine List.forall_mem_cons.mpr ⟨?_, List.forall_mem_singleton.mpr legible_padding⟩
  rcases List.mem_append.mp hu with hu | hu
  · obtain ⟨name, hname, rfl⟩ := List.mem_map.mp hu
    exact legible_blank (List.mem_filter.mp hname).1
  · obtain ⟨name, hname, rfl⟩ := List.mem_map.mp hu
    split at hname
    · rw [List.mem_singleton.mp hname]
      exact isName_of_all (by decide)
    · cases hname

-- Whitespace mode adds names and symbols that can be written.
theorem legibleRule_of_mem_padRules (hr : ∀ named ∈ rules, LegibleRule named) (hstart : IsName start.toList) :
    ∀ named ∈ padRules rules lexerRules start, LegibleRule named := by
  have hwhole : LegibleRule (paddedStart, [⟨[padding, .nonterminal start], none, none⟩]) := by
    have hname : IsName paddedStart.toList := isName_of_all (by decide)
    refine ⟨hname, by simp, List.forall_mem_singleton.mpr ?_⟩
    exact List.forall_mem_cons.mpr ⟨legible_padding, List.forall_mem_singleton.mpr hstart⟩
  refine List.forall_mem_append.mpr ⟨List.forall_mem_map.mpr fun named hn => legibleRule_padRule (hr named hn), ?_⟩
  exact List.forall_mem_cons.mpr ⟨legibleRule_paddingRule, List.forall_mem_singleton.mpr hwhole⟩

theorem suffix_of_readHeader {header result : Header} {line next : Nat} {text body : List (List Char)}
    (h : readHeader header line text = .ok (result, next, body)) : body <:+ text := by
  fun_induction readHeader header line text with
  | case1 | case5 =>
      cases h
      exact List.suffix_rfl
  | case2 header line first rest _ ih => exact (ih h).trans (List.suffix_cons ..)
  | case3 header line first rest _ _ other _ ih => exact (ih h).trans (List.suffix_cons ..)
  | case4 => cases h

-- What is read of a text can be written again.
theorem legibleRule_of_readSource {text : String} {header : Header}
    (h : readSource text = .ok (header, lexerRules, rules)) :
    ∀ named ∈ rules, LegibleRule named := by
  simp only [readSource, bind, Except.bind, pure, Except.pure] at h
  repeat' split at h
  all_goals cases h
  rename_i _ read hheader _ _ found htokens _ named hrules _
  have hbody : Unmarked read.2.2.flatten := by
    obtain ⟨directives, hdirectives⟩ := suffix_of_readHeader hheader
    have hflatten := congrArg List.flatten hdirectives
    rw [List.flatten_append] at hflatten
    exact (unmarked_splitSections text.toList).within ⟨'\n' :: directives.flatten, [], by simp [← hflatten]⟩
  exact throughout_mergeRules (throughout_readRules (List.forall_mem_nil _) (brings_tokens hbody htokens) hrules)

-- The declarations that a text comes to.
theorem exists_declarations {text : String} {whitespace : Bool} {source : GrammarSource}
    (h : GrammarSource.parse text whitespace = .ok source) :
    ∃ start rules precedences,
      Declarations.build ⟨some start, alternativesOf rules, precedences⟩ = .ok source.grammar ∧
        ∀ named ∈ rules, LegibleRule named := by
  rw [parse_eq] at h
  simp only [bind, Except.bind, pure, Except.pure] at h
  cases hread : readSource text with
  | error => simp [hread] at h
  | ok read =>
      obtain ⟨header, lexerRules, rules⟩ := read
      have hrules := legibleRule_of_readSource hread
      cases rules with
      | nil => simp [hread, declarations] at h
      | cons first rest =>
          simp only [hread, declarations_eq] at h
          split at h
          · cases h
          · rename_i grammar hbuild
            cases h
            split at hbuild
            · exact ⟨_, _, _, hbuild, legibleRule_of_mem_padRules hrules (hrules first List.mem_cons_self).name⟩
            · exact ⟨_, _, _, hbuild, hrules⟩

end Declared

end Source

namespace Rules

-- Whether a symbol has a rule.
def Defines (rules : Rules) (symbol : Symbol) : Prop := ∃ ids, rules.lookup? symbol = some ids ∧ ids ≠ []

-- Every nonterminal that has a rule, with its right sides.
def definitions (rules : Rules) : List Source.Definition :=
  (rules.nonterminals.filter fun id => !(rules.alternatives id).isEmpty).map fun id =>
    ((rules.symbol id).name,
      (rules.alternatives id).map fun production => (rules.production production).right.map rules.symbol)

-- Rules that say the same: from the same start symbol, of the same nonterminals, and with
-- the same alternatives of each, in the same order.
structure Agrees (rules other : Rules) : Prop where
  start : other.symbol other.start = rules.symbol rules.start
  defined : ∀ symbol, other.Defines symbol ↔ rules.Defines symbol
  alternatives : ∀ symbol, other.rightSides symbol = rules.rightSides symbol

variable {rules : Rules}

theorem toList_displayAlternative (production : Nat) : (rules.displayAlternative production).toList =
    Source.alternativeText ((rules.production production).right.map rules.symbol) := by
  have hsequence (sequence : List Nat) :
      (rules.displaySequence sequence).toList = Source.symbolsText (sequence.map rules.symbol) := by
    simp [displaySequence, Source.symbolsText, String.toList_join, List.flatMap_map]
  simp only [displayAlternative, Source.alternativeText, List.isEmpty_map]
  split
  · rfl
  · exact hsequence _

theorem toList_display (rules : Rules) :
    '\n' :: rules.display.toList = rules.definitions.flatMap Source.ruleText ++ ['\n'] := by
  rw [display, definitions, String.toList_join, List.flatMap_map, List.flatMap_map]
  generalize rules.nonterminals.filter (fun id => !(rules.alternatives id).isEmpty) = ids
  induction ids with
  | nil => rfl
  | cons id ids ih =>
      rw [List.flatMap_cons, List.flatMap_cons, List.append_assoc, ← ih]
      simp [displayRule, Source.ruleText, String.toList_intercalate, Function.comp_def, toList_displayAlternative]

theorem mem_definitions {definition : Source.Definition} : definition ∈ rules.definitions ↔
    ∃ id ∈ rules.nonterminals, rules.alternatives id ≠ [] ∧ (rules.symbol id).name = definition.1 ∧
      ((rules.alternatives id).map fun production => (rules.production production).right.map rules.symbol) =
        definition.2 := by
  obtain ⟨name, sides⟩ := definition
  simp [definitions, and_assoc]

theorem symbol_of_mem_nonterminals {id : Nat} (h : id ∈ rules.nonterminals) :
    rules.symbol id = .nonterminal (rules.symbol id).name := by
  have hn := mem_nonterminals.mp h
  cases hs : rules.symbol id with
  | nonterminal name => rfl
  | _ => rw [hs] at hn; cases hn

theorem defines_iff {symbol : Symbol} : rules.Defines symbol ↔ rules.rightSides symbol ≠ [] := by
  rw [Defines, rightSides]
  cases rules.lookup? symbol <;> simp

namespace WellFormed

variable (hw : rules.WellFormed)

include hw

theorem symbol_inj {id other : Nat} (hi : id < rules.symbols.size) (ho : other < rules.symbols.size)
    (h : rules.symbol id = rules.symbol other) : id = other := by
  have hid := hw.symbolId?_symbol hi
  rw [h, hw.symbolId?_symbol ho] at hid
  exact (Option.some.inj hid).symm

theorem nodup_definitions : (rules.definitions.map (·.1)).Nodup := by
  rw [definitions, List.map_map]
  refine List.Nodup.map_on (fun id hi other ho h => ?_) ((List.nodup_range.filter _).filter _)
  obtain ⟨hlt, -⟩ := List.mem_filter.mp (List.mem_filter.mp hi).1
  obtain ⟨hother, -⟩ := List.mem_filter.mp (List.mem_filter.mp ho).1
  refine hw.symbol_inj (List.mem_range.mp hlt) (List.mem_range.mp hother) ?_
  rw [symbol_of_mem_nonterminals (List.mem_filter.mp hi).1, symbol_of_mem_nonterminals (List.mem_filter.mp ho).1]
  exact congrArg Symbol.nonterminal h

theorem rightSides_of_mem_definitions {definition : Source.Definition} (h : definition ∈ rules.definitions) :
    rules.rightSides (.nonterminal definition.1) = definition.2 := by
  obtain ⟨id, hid, -, hname, hsides⟩ := mem_definitions.mp h
  rw [rightSides, ← hname, ← symbol_of_mem_nonterminals hid, hw.lookup?_symbol hid]
  exact hsides

theorem exists_definition {left : Symbol} (h : rules.Defines left) :
    ∃ definition ∈ rules.definitions, left = .nonterminal definition.1 := by
  obtain ⟨ids, hlookup, hne⟩ := h
  obtain ⟨id, hid, rfl, rfl⟩ := hw.lookup?_eq_some hlookup
  exact ⟨(_, _), mem_definitions.mpr ⟨id, hid, hne, rfl, rfl⟩, symbol_of_mem_nonterminals hid⟩

end WellFormed

theorem rightSides_of_isTerminal {symbol : Symbol} (h : symbol.isNonterminal = false) : rules.rightSides symbol = [] := by
  rw [rightSides, lookup?]
  cases rules.symbolId? symbol <;> simp [h]

end Rules

namespace Declarations

variable {declarations : Declarations} {start : String} {grammar : Grammar}

-- The start symbol is the first of all nonterminals.
theorem exists_definitions (hstart : declarations.start = some start) (h : declarations.build = .ok grammar) :
    ∃ sides rest, grammar.definitions = (start, sides) :: rest := by
  obtain ⟨productions, -, rfl, hne⟩ := exists_rulesOf_of_build hstart h
  obtain ⟨others, hvocabulary⟩ := vocabulary_eq declarations start
  have hsymbol (id : Nat) : (declarations.rulesOf start productions).symbol id =
      (Symbol.finish :: .epsilon :: .nonterminal start :: others).getD id .epsilon := by
    simp [Rules.symbol, rulesOf, hvocabulary]
  have hid : (declarations.rulesOf start productions).start = 2 := by
    simp [rulesOf, hvocabulary]
  have hids : (declarations.rulesOf start productions).symbolIds =
      0 :: 1 :: 2 :: (List.range others.length).map (· + 3) := by
    simp [Rules.symbolIds, rulesOf, hvocabulary, List.range_succ_eq_map]
  change (declarations.rulesOf start productions).alternatives _ ≠ [] at hne
  rw [Rules.toGrammar, hid] at hne
  change ∃ sides rest, (declarations.rulesOf start productions).definitions = _
  rw [Rules.definitions, Rules.nonterminals, hids]
  simp [hsymbol, hne, Symbol.isNonterminal, Symbol.name]

end Declarations

namespace Source

section Definitions

variable {definitions : List Definition}

theorem filter_alternativesOf_of_not_mem {name : String} (h : name ∉ definitions.map (·.1)) :
    (alternativesOf (definitions.map Definition.rule)).filter (·.1 == name) = [] := by
  refine List.filter_eq_nil_iff.mpr fun rule hr he => h ?_
  obtain ⟨named, hn, hname, -⟩ := mem_alternativesOf.mp hr
  obtain ⟨definition, hd, rfl⟩ := List.mem_map.mp hn
  exact List.mem_map.mpr ⟨definition, hd, hname.symm.trans (beq_iff_eq.mp he)⟩

-- The alternatives of a name are those of its definition.
theorem filter_alternativesOf (hnodup : (definitions.map (·.1)).Nodup) {definition : Definition}
    (h : definition ∈ definitions) :
    (alternativesOf (definitions.map Definition.rule)).filter (·.1 == definition.1) =
      definition.2.map fun symbols => (definition.1, plainAlternative symbols) := by
  induction definitions with
  | nil => cases h
  | cons first rest ih =>
      obtain ⟨hnew, hrest⟩ := List.nodup_cons.mp hnodup
      have hcons : alternativesOf ((first :: rest).map Definition.rule) =
          first.2.map (fun symbols => (first.1, plainAlternative symbols)) ++
            alternativesOf (rest.map Definition.rule) := by
        simp [alternativesOf, Definition.rule, Function.comp_def]
      rw [hcons, List.filter_append]
      rcases List.mem_cons.mp h with rfl | h
      · rw [filter_alternativesOf_of_not_mem hnew, List.append_nil, List.filter_eq_self]
        simp
      · have hne : first.1 ≠ definition.1 := fun he => hnew (List.mem_map.mpr ⟨definition, h, he.symm⟩)
        rw [ih hrest h, List.filter_eq_nil_iff.mpr (by simp [hne]), List.nil_append]

end Definitions

section Printed

variable {rules : Rules} {start : String}

-- The definitions of a grammar as they are read again.
def printed (rules : Rules) (start : String) : Declarations :=
  ⟨some start, alternativesOf (rules.definitions.map Definition.rule), []⟩

theorem mem_printed {rule : String × Alternative} : rule ∈ (printed rules start).rules ↔
    ∃ definition ∈ rules.definitions, ∃ symbols ∈ definition.2, (definition.1, plainAlternative symbols) = rule := by
  simp [printed, alternativesOf, Definition.rule, Prod.ext_iff]

theorem Definition.Printable.filter_epsilon {definition : Definition} (h : definition.Printable) {symbols : List Symbol}
    (hs : symbols ∈ definition.2) : symbols.filter (· != .epsilon) = symbols := by
  refine filter_epsilon_eq_self fun symbol hm => ?_
  rintro rfl
  exact (h.symbols symbols hs _ hm).1

variable (hw : rules.WellFormed) (hprintable : ∀ definition ∈ rules.definitions, definition.Printable)

include hw hprintable

theorem produces_printed {left : Symbol} {right : List Symbol} :
    (printed rules start).Produces left right ↔ rules.Produces left right := by
  rw [← hw.mem_rightSides]
  constructor
  · rintro ⟨rule, hr, rfl, rfl⟩
    obtain ⟨definition, hd, symbols, hs, rfl⟩ := mem_printed.mp hr
    rw [hw.rightSides_of_mem_definitions hd, plainAlternative, (hprintable definition hd).filter_epsilon hs]
    exact hs
  · intro h
    obtain ⟨definition, hd, rfl⟩ := hw.exists_definition (Rules.defines_iff.mpr (List.ne_nil_of_mem h))
    rw [hw.rightSides_of_mem_definitions hd] at h
    exact ⟨_, mem_printed.mpr ⟨definition, hd, right, h, rfl⟩, rfl,
      ((hprintable definition hd).filter_epsilon h).symm⟩

theorem complete_printed {sides : List (List Symbol)} {rest : List Definition}
    (hfirst : rules.definitions = (start, sides) :: rest) : (printed rules start).Complete start := by
  constructor
  case start_eq => rfl
  case start_declared =>
    have hd : (start, sides) ∈ rules.definitions := hfirst ▸ List.mem_cons_self
    obtain ⟨symbols, hs⟩ := List.exists_mem_of_ne_nil _ (hprintable _ hd).nonempty
    exact ⟨_, mem_printed.mpr ⟨_, hd, symbols, hs, rfl⟩, rfl⟩
  case templates =>
    intro rule hr text ht
    obtain ⟨definition, -, symbols, -, rfl⟩ := mem_printed.mp hr
    cases ht
  case defined =>
    intro left right h symbol hs hn
    obtain ⟨below, hbelow⟩ := hw.exists_produces ((produces_printed hw hprintable).mp h) hs hn
    exact ⟨below, (produces_printed hw hprintable).mpr hbelow⟩

theorem rightSides_printed {grammar : Grammar} (h : (printed rules start).build = .ok grammar) (symbol : Symbol) :
    grammar.rightSides symbol = rules.rightSides symbol := by
  by_cases hn : symbol.isNonterminal = true
  · obtain ⟨name, rfl⟩ : ∃ name, symbol = .nonterminal name := by
      cases symbol with
      | nonterminal name => exact ⟨name, rfl⟩
      | _ => cases hn
    rw [Declarations.rightSides_build rfl h]
    by_cases hname : name ∈ rules.definitions.map (·.1)
    · obtain ⟨definition, hd, rfl⟩ := List.mem_map.mp hname
      rw [printed, filter_alternativesOf hw.nodup_definitions hd, List.map_map, hw.rightSides_of_mem_definitions hd]
      exact (List.map_congr_left fun symbols hs => (hprintable definition hd).filter_epsilon hs).trans (List.map_id _)
    · rw [printed, filter_alternativesOf_of_not_mem hname, List.map_nil, eq_comm]
      by_contra hne
      obtain ⟨definition, hd, he⟩ := hw.exists_definition (Rules.defines_iff.mpr hne)
      exact hname (List.mem_map.mpr ⟨definition, hd, (Symbol.nonterminal.inj he).symm⟩)
  · rw [Bool.not_eq_true] at hn
    exact (Rules.rightSides_of_isTerminal hn).trans (Rules.rightSides_of_isTerminal hn).symm

end Printed

-- Definitions of a grammar that was read can be printed, if none has the name of a
-- wildcard.
theorem printable_definitions {start : String} {rules : List NamedRule} {precedences : List (Assoc × List String)}
    {grammar : Grammar} (h : Declarations.build ⟨some start, alternativesOf rules, precedences⟩ = .ok grammar)
    (hrules : ∀ named ∈ rules, LegibleRule named)
    (hany : ¬ grammar.toRules.Defines (.nonterminal "ANY"))
    (hanyncr : ¬ grammar.toRules.Defines (.nonterminal "ANYNCR")) :
    ∀ definition ∈ grammar.definitions, definition.Printable := by
  have hw := (Grammar.Built.declared h).wellFormed
  have hproduces := (Declarations.language_build rfl h).2
  have hlegible : ∀ {name right}, grammar.toRules.Produces (.nonterminal name) right →
      IsName name.toList ∧ ∀ symbol ∈ right, Legible symbol := by
    intro name right hr
    rw [hproduces] at hr
    obtain ⟨rule, hr, hname, rfl⟩ := hr
    obtain ⟨named, hn, hrule, ha⟩ := mem_alternativesOf.mp hr
    have hnamed := hrules named hn
    rw [Symbol.nonterminal.inj hname, hrule]
    exact ⟨hnamed.name, fun symbol hs => hnamed.symbols _ ha symbol (List.mem_filter.mp hs).1⟩
  intro definition hd
  have hsides : ∀ symbols ∈ definition.2, grammar.toRules.Produces (.nonterminal definition.1) symbols :=
    fun symbols hs => hw.mem_rightSides.mp (hw.rightSides_of_mem_definitions hd ▸ hs)
  obtain ⟨id, -, hne, -, hdefinition⟩ := Rules.mem_definitions.mp hd
  have hnonempty : definition.2 ≠ [] := by simpa [← hdefinition] using hne
  obtain ⟨symbols, hs⟩ := List.exists_mem_of_ne_nil _ hnonempty
  refine ⟨(hlegible (hsides symbols hs)).1, hnonempty, fun symbols hs symbol hm => ?_⟩
  have hdefined {name : String} (he : symbol = .nonterminal name) : grammar.toRules.Defines (.nonterminal name) := by
    obtain ⟨below, hbelow⟩ := hw.exists_produces (hsides symbols hs) hm (he ▸ rfl)
    exact Rules.defines_iff.mpr (List.ne_nil_of_mem (hw.mem_rightSides.mpr (he ▸ hbelow)))
  exact ⟨(hlegible (hsides symbols hs)).2 symbol hm, fun he => hany (hdefined he), fun he => hanyncr (hdefined he)⟩

end Source

namespace GrammarSource

open Source

-- A grammar that is printed is the grammar that is read back, as no rule has the name
-- of a wildcard.
theorem parse_display {text : String} {whitespace : Bool} {source : GrammarSource}
    (hp : GrammarSource.parse text whitespace = .ok source)
    (hany : ¬ source.grammar.toRules.Defines (.nonterminal "ANY"))
    (hanyncr : ¬ source.grammar.toRules.Defines (.nonterminal "ANYNCR")) :
    ∃ again, GrammarSource.parse source.grammar.toRules.display false = .ok again ∧
      source.grammar.toRules.Agrees again.grammar.toRules := by
  obtain ⟨start, rules, precedences, hbuild, hrules⟩ := exists_declarations hp
  have hw := (Grammar.Built.declared hbuild).wellFormed
  have hprintable := printable_definitions hbuild hrules hany hanyncr
  obtain ⟨sides, rest, hfirst⟩ := Declarations.exists_definitions rfl hbuild
  have hread := readSource_printed (by rw [hfirst]; simp) hprintable hw.nodup_definitions
    (Rules.toList_display source.grammar.toRules)
  obtain ⟨grammar, hagain⟩ := (complete_printed hw hprintable hfirst).exists_build
  refine ⟨⟨grammar, [], (default : Header).options⟩, ?_, ?_, fun symbol => ?_, rightSides_printed hw hprintable hagain⟩
  · have hdeclared : declarations (source.grammar.definitions.map Definition.rule) [] default =
        .ok (printed source.grammar.toRules start) := by
      rw [printed, hfirst]
      rfl
    have hplain : { (default : Header) with options :=
      { (default : Header).options with whitespace := (default : Header).options.whitespace || false } } = default := rfl
    rw [parse_eq, hread]
    simp only [bind, Except.bind, hplain, hdeclared, hagain]
    rfl
  · rw [(Declarations.language_build rfl hagain).1, (Declarations.language_build rfl hbuild).1]
  · rw [Rules.defines_iff, Rules.defines_iff, rightSides_printed hw hprintable hagain]

-- A name with letters of all kinds, terminals that hold signs, line feeds and nothing, and
-- the rules of whitespace mode.
def awkward : String :=
  "Größe ::= Größe \"|;\n%%%\n\" Teil | ;\nTeil ::= <sub> ANY | \"\" %prec \"x\"\n%%\n<ws>:\"[ ]+\"\n"

theorem parse_display_awkward :
    ∃ source, GrammarSource.parse awkward true = .ok source ∧
      ¬ source.grammar.toRules.Defines (.nonterminal "ANY") ∧
      ¬ source.grammar.toRules.Defines (.nonterminal "ANYNCR") ∧
      ∃ again, GrammarSource.parse source.grammar.toRules.display false = .ok again ∧
        source.grammar.toRules.Agrees again.grammar.toRules := by
  have hparse : ((GrammarSource.parse awkward true).toOption.any fun source =>
      (source.grammar.toRules.rightSides (.nonterminal "ANY")).isEmpty &&
        (source.grammar.toRules.rightSides (.nonterminal "ANYNCR")).isEmpty) = true := by
    decide +kernel
  obtain ⟨source, hp, hchecks⟩ := exists_of_toOption_any hparse
  simp only [Bool.and_eq_true, List.isEmpty_iff] at hchecks
  have hany := mt Rules.defines_iff.mp (not_not_intro hchecks.1)
  have hanyncr := mt Rules.defines_iff.mp (not_not_intro hchecks.2)
  exact ⟨source, hp, hany, hanyncr, parse_display hp hany hanyncr⟩

end GrammarSource

end IncrementalLR
