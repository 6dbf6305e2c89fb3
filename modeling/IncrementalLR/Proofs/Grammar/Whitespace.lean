import IncrementalLR.Grammar.Source.Basic
import IncrementalLR.Proofs.Automaton.Cells
import IncrementalLR.Proofs.Grammar.Padding

namespace IncrementalLR

theorem Rules.Avoids.of_produces {rules : Rules} {kind : Symbol → Bool} (ha : rules.Avoids kind) {left symbol : Symbol}
    {right : List Symbol} (h : rules.Produces left right) (hs : symbol ∈ right) : kind symbol = false := by
  obtain ⟨production, id, -, -, rfl⟩ := h
  obtain ⟨inner, hmem, rfl⟩ := List.mem_map.mp hs
  exact ha production inner hmem

theorem Rules.WellFormed.avoids_of_produces {rules : Rules} {kind : Symbol → Bool} (hw : rules.WellFormed)
    (hstart : kind (rules.symbol rules.start) = false)
    (h : ∀ left right, rules.Produces left right → ∀ symbol ∈ right, kind symbol = false) : rules.Avoids kind := by
  intro id symbol hmem
  rcases Nat.eq_zero_or_pos id with rfl | hpos
  · change symbol ∈ (rules.production startProduction).right at hmem
    rw [hw.start_right, List.mem_singleton] at hmem
    exact hmem ▸ hstart
  · by_cases hlt : id < rules.productions.size
    · obtain ⟨left, hleft, -, -⟩ := hw.left id hpos hlt
      exact h _ _ ⟨id, left, hleft, rfl, rfl⟩ _ (List.mem_map_of_mem hmem)
    · rw [production_of_size_le (Nat.le_of_not_lt hlt)] at hmem
      cases hmem

namespace Source

section Reading

-- What holds of the name of a rule and of the symbols of its alternatives, of which
-- there is at least one.
structure Throughout (names : String → Prop) (kinds : Symbol → Prop) (rule : NamedRule) : Prop where
  name : names rule.1
  nonempty : rule.2 ≠ []
  symbols : ∀ alternative ∈ rule.2, ∀ symbol ∈ alternative.symbols, kinds symbol

-- What a token must bring into a rule for that.
def Brings (names : String → Prop) (kinds : Symbol → Prop) : Token → Prop
  | .name name => names name ∧ kinds (nameSymbol name)
  | .terminal name => kinds (.terminal name)
  | .magic name => kinds (.magic name)
  | _ => True

variable {names : String → Prop} {kinds : Symbol → Prop}

namespace OpenRule

theorem throughout_close {rule : OpenRule} : Throughout names kinds rule.close ↔ names rule.name ∧
    (∀ alternative ∈ rule.finished, ∀ symbol ∈ alternative.symbols, kinds symbol) ∧
      ∀ symbol ∈ rule.current.symbols, kinds symbol := by
  constructor
  · intro h
    obtain ⟨hfinished, hcurrent⟩ := List.forall_mem_append.mp h.symbols
    exact ⟨h.name, hfinished, List.forall_mem_singleton.mp hcurrent⟩
  · rintro ⟨hname, hfinished, hcurrent⟩
    exact ⟨hname, by simp [OpenRule.close],
      List.forall_mem_append.mpr ⟨hfinished, List.forall_mem_singleton.mpr hcurrent⟩⟩

theorem throughout_start {name : String} (h : names name) : Throughout names kinds (OpenRule.start name).close :=
  throughout_close.mpr ⟨h, nofun, nofun⟩

variable {rule : OpenRule} (h : Throughout names kinds rule.close)

include h

theorem throughout_nextAlternative : Throughout names kinds rule.nextAlternative.close := by
  obtain ⟨hname, hfinished, hcurrent⟩ := throughout_close.mp h
  refine throughout_close.mpr ⟨hname, ?_, nofun⟩
  exact List.forall_mem_append.mpr ⟨hfinished, List.forall_mem_singleton.mpr hcurrent⟩

theorem throughout_addSymbol {symbol : Symbol} (hs : kinds symbol) :
    Throughout names kinds (rule.addSymbol symbol).close := by
  obtain ⟨hname, hfinished, hcurrent⟩ := throughout_close.mp h
  refine throughout_close.mpr ⟨hname, hfinished, ?_⟩
  exact List.forall_mem_append.mpr ⟨hcurrent, List.forall_mem_singleton.mpr hs⟩

theorem throughout_setTag (name : String) : Throughout names kinds (rule.setTag name).close := by
  obtain ⟨hname, hfinished, hcurrent⟩ := throughout_close.mp h
  exact throughout_close.mpr ⟨hname, hfinished, hcurrent⟩

theorem throughout_setTemplate (text : String) : Throughout names kinds (rule.setTemplate text).close := by
  obtain ⟨hname, hfinished, hcurrent⟩ := throughout_close.mp h
  exact throughout_close.mpr ⟨hname, hfinished, hcurrent⟩

end OpenRule

theorem exists_of_map_eq_ok {α β ε : Type} {f : α → β} {value : Except ε α} {result : β}
    (h : value.map f = .ok result) : ∃ inner, value = .ok inner ∧ f inner = result := by
  cases value with
  | error => cases h
  | ok inner => exact ⟨inner, rfl, Except.ok.inj h⟩

theorem exists_of_toOption_any {α ε : Type} {value : Except ε α} {check : α → Bool} (h : value.toOption.any check = true) :
    ∃ inner, value = .ok inner ∧ check inner = true := by
  cases value with
  | error => cases h
  | ok inner => exact ⟨inner, rfl, h⟩

theorem forall_closeRule_some {rule : OpenRule} :
    (∀ named ∈ closeRule (some rule), Throughout names kinds named) ↔ Throughout names kinds rule.close := by
  simp [closeRule]

-- The rules of a text are made of what its tokens bring.
theorem throughout_readRules {rule : Option OpenRule} {tokens : List (Token × Nat)} {rules : List NamedRule}
    (hr : ∀ named ∈ closeRule rule, Throughout names kinds named)
    (ht : ∀ token ∈ tokens, Brings names kinds token.1) (h : readRules rule tokens = .ok rules) :
    ∀ named ∈ rules, Throughout names kinds named := by
  fun_induction readRules rule tokens generalizing rules with
  | case1 => exact Except.ok.inj h ▸ hr
  | case2 rule name _ _ rest ih =>
      obtain ⟨hfirst, hrest⟩ := List.forall_mem_cons.mp ht
      obtain ⟨others, ho, rfl⟩ := exists_of_map_eq_ok h
      exact List.forall_mem_append.mpr ⟨hr, ih (forall_closeRule_some.mpr (OpenRule.throughout_start hfirst.1))
        (List.forall_mem_cons.mp hrest).2 ho⟩
  | case3 | case4 | case11 | case12 | case15 => cases h
  | case5 _ _ rule _ ih =>
      obtain ⟨others, ho, rfl⟩ := exists_of_map_eq_ok h
      exact List.forall_mem_cons.mpr
        ⟨forall_closeRule_some.mp hr, ih nofun (List.forall_mem_cons.mp ht).2 ho⟩
  | case6 _ _ rule _ ih =>
      exact ih (forall_closeRule_some.mpr (OpenRule.throughout_nextAlternative (forall_closeRule_some.mp hr)))
        (List.forall_mem_cons.mp ht).2 h
  | case7 _ _ rule name _ ih | case8 _ _ rule name _ ih =>
      obtain ⟨hfirst, hrest⟩ := List.forall_mem_cons.mp ht
      exact ih (forall_closeRule_some.mpr (OpenRule.throughout_addSymbol (forall_closeRule_some.mp hr) hfirst)) hrest h
  | case9 _ _ rule name _ ih =>
      obtain ⟨hfirst, hrest⟩ := List.forall_mem_cons.mp ht
      exact ih (forall_closeRule_some.mpr (OpenRule.throughout_addSymbol (forall_closeRule_some.mp hr) hfirst.2))
        hrest h
  | case10 _ _ rule text _ ih =>
      exact ih (forall_closeRule_some.mpr (OpenRule.throughout_setTemplate (forall_closeRule_some.mp hr) text))
        (List.forall_mem_cons.mp ht).2 h
  | case13 _ rule name _ _ _ ih | case14 _ rule name _ _ _ ih =>
      exact ih (forall_closeRule_some.mpr (OpenRule.throughout_setTag (forall_closeRule_some.mp hr) name))
        (List.forall_mem_cons.mp (List.forall_mem_cons.mp ht).2).2 h

theorem throughout_mergeRule {rules : List NamedRule} {rule : NamedRule}
    (hr : ∀ named ∈ rules, Throughout names kinds named) (h : Throughout names kinds rule) :
    ∀ named ∈ mergeRule rules rule, Throughout names kinds named := by
  unfold mergeRule
  split
  · intro named hnamed
    obtain ⟨⟨name, alternatives⟩, ho, rfl⟩ := List.mem_map.mp hnamed
    have hother := hr _ ho
    by_cases hname : name = rule.1
    · simp only [if_pos hname]
      refine ⟨hother.name, fun he => hother.nonempty (List.append_eq_nil_iff.mp he).1, ?_⟩
      exact List.forall_mem_append.mpr ⟨hother.symbols, h.symbols⟩
    · simp only [if_neg hname]
      exact hother
  · exact List.forall_mem_append.mpr ⟨hr, List.forall_mem_singleton.mpr h⟩

theorem throughout_mergeRules {rules : List NamedRule} (hr : ∀ named ∈ rules, Throughout names kinds named) :
    ∀ named ∈ mergeRules rules, Throughout names kinds named := by
  suffices h : ∀ merged, (∀ named ∈ merged, Throughout names kinds named) →
      ∀ named ∈ rules.foldl mergeRule merged, Throughout names kinds named from h [] nofun
  induction rules with
  | nil => exact fun merged hm => hm
  | cons rule rest ih =>
      obtain ⟨hfirst, hrest⟩ := List.forall_mem_cons.mp hr
      exact fun merged hm => ih hrest _ (throughout_mergeRule hm hfirst)

-- Symbols as a text can name them.
def Written (symbol : Symbol) : Prop :=
  symbol.isNonterminal = true ∨ followsPadding symbol = true ∨ symbol.isWildcard = true

def WrittenRule (rule : NamedRule) : Prop :=
  rule.2 ≠ [] ∧ ∀ alternative ∈ rule.2, ∀ symbol ∈ alternative.symbols, Written symbol

theorem written_nameSymbol (name : String) : Written (nameSymbol name) := by
  unfold nameSymbol
  split
  · exact Or.inr (Or.inr rfl)
  · split
    · exact Or.inr (Or.inr rfl)
    · exact Or.inl rfl

theorem Written.ne_epsilon {symbol : Symbol} (h : Written symbol) : symbol ≠ .epsilon := by
  rintro rfl
  rcases h with h | h | h <;> cases h

-- A text names no symbols but terminals, nonterminals and wildcards, and a rule has
-- at least one alternative.
theorem written_mergeRules_readRules {tokens : List (Token × Nat)} {rules : List NamedRule}
    (h : readRules none tokens = .ok rules) : ∀ named ∈ mergeRules rules, WrittenRule named := by
  have hbrings (token : Token) : Brings (fun _ => True) Written token := by
    cases token with
    | name name => exact ⟨trivial, written_nameSymbol name⟩
    | terminal | magic => exact Or.inr (Or.inl rfl)
    | template | mapsTo | alternative | semicolon | tag => trivial
  intro named hnamed
  have hrule := throughout_mergeRules (throughout_readRules (List.forall_mem_nil _) (fun token _ => hbrings token.1) h) named hnamed
  exact ⟨hrule.nonempty, hrule.symbols⟩

end Reading

-- The terminals that are whitespace, as far as the lexer knows of them.
def blanks (lexerRules : List LexerRule) : List Symbol :=
  (blankRules.filter fun name => lexerRules.any (·.name == name)).map Symbol.terminal

-- The names that whitespace mode takes for itself.
def reserved : List Symbol := [padding, .nonterminal paddedStart, .nonterminal commentRule]

section Declared

variable {rules : List NamedRule} {lexerRules : List LexerRule} {start : String}
  {precedences : List (Assoc × List String)}

theorem mem_alternativesOf {rule : String × Alternative} :
    rule ∈ alternativesOf rules ↔ ∃ named ∈ rules, rule.1 = named.1 ∧ rule.2 ∈ named.2 := by
  obtain ⟨name, alternative⟩ := rule
  simp only [alternativesOf, List.mem_flatMap, List.mem_map, Prod.mk.injEq]
  constructor
  · rintro ⟨named, hnamed, other, ho, rfl, rfl⟩
    exact ⟨named, hnamed, rfl, ho⟩
  · rintro ⟨named, hnamed, rfl, ho⟩
    exact ⟨named, hnamed, alternative, ho, rfl, rfl⟩

theorem produces_of_mem {named : NamedRule} (hn : named ∈ rules) {alternative : Alternative}
    (ha : alternative ∈ named.2) : Declarations.Produces ⟨some start, alternativesOf rules, precedences⟩
      (.nonterminal named.1) (alternative.symbols.filter (· != .epsilon)) :=
  ⟨(named.1, alternative), mem_alternativesOf.mpr ⟨named, hn, rfl, ha⟩, rfl, rfl⟩

theorem dropBeforeWildcard_eq_self {symbols : List Symbol} (h : ∀ symbol ∈ symbols, symbol.isWildcard = false) :
    dropBeforeWildcard symbols = symbols := by
  induction symbols with
  | nil => rfl
  | cons first rest ih =>
      cases rest with
      | nil => rfl
      | cons next rest =>
          have hnext := h next (by simp)
          rw [dropBeforeWildcard, hnext, Bool.and_false, ih fun symbol hs => h symbol (List.mem_cons_of_mem _ hs)]
          rfl

theorem padSymbols_eq_pad {symbols : List Symbol} (h : ∀ symbol ∈ symbols, symbol.isWildcard = false) :
    padSymbols symbols = pad symbols := by
  refine dropBeforeWildcard_eq_self fun symbol hs => ?_
  rcases mem_pad hs with hs | rfl
  · exact h symbol hs
  · rfl

theorem filter_epsilon_eq_self {symbols : List Symbol} (h : ∀ symbol ∈ symbols, symbol ≠ .epsilon) :
    symbols.filter (· != .epsilon) = symbols :=
  List.filter_eq_self.mpr fun symbol hs => bne_iff_ne.mpr (h symbol hs)

theorem blanks_eq (lexerRules : List LexerRule) : blanks lexerRules =
    (blankRules.filter fun name => lexerRules.any (·.name == name)).map Symbol.terminal := rfl

theorem isTerminal_of_mem_blanks {blank : Symbol} (h : blank ∈ blanks lexerRules) : blank.isTerminal = true := by
  obtain ⟨name, -, rfl⟩ := List.mem_map.mp h
  rfl

-- Rules that whitespace mode pads symbol by symbol.
structure Plain (rules : List NamedRule) : Prop where
  written : ∀ named ∈ rules, WrittenRule named
  comment : ∀ named ∈ rules, named.1 ≠ commentRule
  wildcards : ∀ named ∈ rules, ∀ alternative ∈ named.2, ∀ symbol ∈ alternative.symbols, symbol.isWildcard = false

namespace Plain

variable (hp : Plain rules)

include hp

theorem padRule_eq {named : NamedRule} (hn : named ∈ rules) : padRule named =
    (named.1, named.2.map fun alternative => { alternative with symbols := pad alternative.symbols }) := by
  rw [padRule, if_neg (hp.comment named hn)]
  refine congrArg (named.1, ·) (List.map_congr_left fun alternative ha => ?_)
  rw [padSymbols_eq_pad (hp.wildcards named hn alternative ha)]

theorem paddingRule_eq : paddingRule rules lexerRules =
    (padding.name, (blanks lexerRules).map (⟨[·, padding], none, none⟩) ++ [default]) := by
  have hcomment : rules.any (·.1 == commentRule) = false := by
    rw [List.any_eq_false]
    exact fun named hn => by simpa using hp.comment named hn
  simp only [paddingRule, hcomment, Bool.false_eq_true, if_false, List.map_nil, List.append_nil, blanks_eq]

-- The rules of whitespace mode, alternative by alternative.
theorem alternativesOf_padRules : alternativesOf (padRules rules lexerRules start) =
    (alternativesOf rules).map (fun rule => (rule.1, { rule.2 with symbols := pad rule.2.symbols })) ++
      ((blanks lexerRules).map (fun blank => (padding.name, ⟨[blank, padding], none, none⟩)) ++
        [(padding.name, default), (paddedStart, ⟨[padding, .nonterminal start], none, none⟩)]) := by
  have hrules : alternativesOf (rules.map padRule) =
      (alternativesOf rules).map fun rule => (rule.1, { rule.2 with symbols := pad rule.2.symbols }) := by
    rw [alternativesOf, alternativesOf, List.flatMap_map, List.map_flatMap]
    refine List.flatMap_congr fun named hn => ?_
    rw [hp.padRule_eq hn, List.map_map]
    exact List.map_map.trans rfl
  rw [padRules, alternativesOf, List.flatMap_append, ← alternativesOf, hrules]
  simp only [List.flatMap_cons, List.flatMap_nil, hp.paddingRule_eq, List.map_append, List.map_map, List.map_cons,
    List.map_nil, List.append_nil, List.append_assoc, List.cons_append, List.nil_append]
  rfl

theorem written_of_mem {rule : String × Alternative} (hr : rule ∈ alternativesOf rules) {symbol : Symbol}
    (hs : symbol ∈ rule.2.symbols) : Written symbol ∧ symbol.isWildcard = false := by
  obtain ⟨named, hn, -, ha⟩ := mem_alternativesOf.mp hr
  exact ⟨(hp.written named hn).2 rule.2 ha symbol hs, hp.wildcards named hn rule.2 ha symbol hs⟩

theorem filter_symbols {rule : String × Alternative} (hr : rule ∈ alternativesOf rules) :
    rule.2.symbols.filter (· != .epsilon) = rule.2.symbols :=
  filter_epsilon_eq_self fun _ hs => (hp.written_of_mem hr hs).1.ne_epsilon

theorem filter_pad {rule : String × Alternative} (hr : rule ∈ alternativesOf rules) :
    (pad rule.2.symbols).filter (· != .epsilon) = pad rule.2.symbols := by
  refine filter_epsilon_eq_self fun symbol hs => ?_
  rcases mem_pad hs with hs | rfl
  · exact (hp.written_of_mem hr hs).1.ne_epsilon
  · exact Symbol.noConfusion

theorem produces_padRules :
    Declarations.Produces ⟨some paddedStart, alternativesOf (padRules rules lexerRules start), precedences⟩ =
      Padded (Declarations.Produces ⟨some start, alternativesOf rules, precedences⟩) (blanks lexerRules) start := by
  funext left right
  refine propext ⟨?_, fun h => ?_⟩
  · rintro ⟨rule, hr, rfl, rfl⟩
    rw [hp.alternativesOf_padRules] at hr
    rcases List.mem_append.mp hr with hr | hr
    · obtain ⟨inner, hi, rfl⟩ := List.mem_map.mp hr
      rw [hp.filter_pad hi]
      exact .rule ⟨inner, hi, rfl, (hp.filter_symbols hi).symm⟩
    · rcases List.mem_append.mp hr with hr | hr
      · obtain ⟨blank, hb, rfl⟩ := List.mem_map.mp hr
        obtain ⟨name, -, rfl⟩ := List.mem_map.mp hb
        exact .blank hb
      · rcases List.mem_cons.mp hr with rfl | hr
        · exact .none
        · rw [List.mem_singleton.mp hr]
          exact .start
  · simp only [Declarations.Produces, hp.alternativesOf_padRules, List.mem_append, List.mem_map]
    cases h with
    | rule h =>
        obtain ⟨inner, hi, rfl, rfl⟩ := h
        exact ⟨_, Or.inl ⟨inner, hi, rfl⟩, rfl, by rw [hp.filter_pad hi, hp.filter_symbols hi]⟩
    | @blank blank hb =>
        refine ⟨_, Or.inr (Or.inl ⟨blank, hb, rfl⟩), rfl, ?_⟩
        obtain ⟨name, -, rfl⟩ := List.mem_map.mp hb
        rfl
    | none => exact ⟨_, Or.inr (Or.inr (List.mem_cons_self ..)), rfl, rfl⟩
    | start => exact ⟨_, Or.inr (Or.inr (List.mem_cons_of_mem _ (List.mem_cons_self ..))), rfl, rfl⟩

-- Whitespace mode leaves nothing undeclared that was declared before.
theorem complete_padRules (hc : Declarations.Complete ⟨some start, alternativesOf rules, precedences⟩ start) :
    Declarations.Complete ⟨some paddedStart, alternativesOf (padRules rules lexerRules start), precedences⟩
      paddedStart := by
  constructor
  case start_eq => rfl
  case start_declared =>
    refine ⟨(paddedStart, ⟨[padding, .nonterminal start], none, none⟩), ?_, rfl⟩
    simp only [hp.alternativesOf_padRules, List.mem_append, List.mem_cons, true_or, or_true]
  case templates =>
    intro rule hr text ht
    rw [hp.alternativesOf_padRules] at hr
    simp only [List.mem_append, List.mem_map, List.mem_cons, List.not_mem_nil, or_false] at hr
    rcases hr with ⟨inner, hi, rfl⟩ | ⟨blank, -, rfl⟩ | rfl | rfl
    · exact hc.templates inner hi text ht
    · cases ht
    · cases ht
    · cases ht
  case defined =>
    rw [hp.produces_padRules]
    intro left right h symbol hs hn
    cases h with
    | rule h =>
        rcases mem_pad hs with hs | rfl
        · obtain ⟨below, hbelow⟩ := hc.defined _ _ h symbol hs hn
          exact ⟨_, .rule hbelow⟩
        · exact ⟨_, .none⟩
    | blank hb =>
        rcases List.mem_cons.mp hs with rfl | hs
        · have ht := isTerminal_of_mem_blanks hb
          rw [Symbol.isTerminal, hn] at ht
          cases ht
        · exact List.mem_singleton.mp hs ▸ ⟨_, .none⟩
    | none => cases hs
    | start =>
        rcases List.mem_cons.mp hs with rfl | hs
        · exact ⟨_, .none⟩
        · rw [List.mem_singleton.mp hs]
          obtain ⟨rule, hr, hname⟩ := hc.start_declared
          exact ⟨_, .rule ⟨rule, hr, by rw [hname], rfl⟩⟩

end Plain

end Declared

section Padding

theorem mem_of_mem_dropBeforeWildcard {symbol : Symbol} {symbols : List Symbol} (h : symbol ∈ dropBeforeWildcard symbols) :
    symbol ∈ symbols := by
  fun_induction dropBeforeWildcard symbols with
  | case1 | case2 => exact h
  | case3 _ _ _ _ ih => exact List.mem_cons_of_mem _ (ih h)
  | case4 _ _ _ _ ih =>
      rcases List.mem_cons.mp h with rfl | h
      · exact List.mem_cons_self
      · exact List.mem_cons_of_mem _ (ih h)

-- Whitespace mode brings in no symbols of another kind, wildcards or not.
theorem written_padRules {rules : List NamedRule} {lexerRules : List LexerRule} {start : String}
    (hw : ∀ named ∈ rules, WrittenRule named) {rule : String × Alternative}
    (hr : rule ∈ alternativesOf (padRules rules lexerRules start)) : ∀ symbol ∈ rule.2.symbols, Written symbol := by
  have hpadding : Written padding := Or.inl rfl
  obtain ⟨named, hnamed, -, ha⟩ := mem_alternativesOf.mp hr
  rcases List.mem_append.mp hnamed with hnamed | hnamed
  · obtain ⟨inner, hinner, rfl⟩ := List.mem_map.mp hnamed
    intro symbol hs
    unfold padRule at ha
    split at ha
    · exact (hw inner hinner).2 _ ha symbol hs
    · obtain ⟨alternative, halternative, halt⟩ := List.mem_map.mp ha
      rw [← halt] at hs
      rcases mem_pad (mem_of_mem_dropBeforeWildcard hs) with hs | rfl
      · exact (hw inner hinner).2 alternative halternative symbol hs
      · exact hpadding
  · rcases List.mem_cons.mp hnamed with rfl | hnamed
    · rcases List.mem_append.mp ha with ha | ha
      · obtain ⟨unit, hunit, halt⟩ := List.mem_map.mp ha
        have hwritten : Written unit := by
          rcases List.mem_append.mp hunit with hunit | hunit
          · obtain ⟨name, -, rfl⟩ := List.mem_map.mp hunit
            exact Or.inr (Or.inl rfl)
          · obtain ⟨name, -, rfl⟩ := List.mem_map.mp hunit
            exact Or.inl rfl
        rw [← halt]
        exact List.forall_mem_cons.mpr ⟨hwritten, List.forall_mem_singleton.mpr hpadding⟩
      · rw [List.mem_singleton.mp ha]
        exact fun _ hs => absurd hs List.not_mem_nil
    · rw [List.mem_singleton.mp hnamed] at ha
      rw [List.mem_singleton.mp ha]
      exact List.forall_mem_cons.mpr ⟨hpadding, List.forall_mem_singleton.mpr (Or.inl rfl)⟩

end Padding

section Parsing

-- What is read of a text before whitespace mode plays a part.
def readSource (text : String) : Except GrammarError (Header × List LexerRule × List NamedRule) := do
  let (ruleLines, lexerLines) := splitSections (Text.linesWithEnds text.toList)
  let (header, bodyLine, body) ← readHeader default 1 ruleLines
  let lexerRules ← readLexerRules (ruleLines.length + 2) (lexerLines.map Text.dropLineEnd)
  let rules ← readRules none (← tokens bodyLine body.flatten)
  return (header, lexerRules, mergeRules rules)

theorem parse_eq (text : String) (whitespace : Bool) : GrammarSource.parse text whitespace = (do
    let (header, lexerRules, rules) ← readSource text
    let options := { header.options with whitespace := header.options.whitespace || whitespace }
    let declared ← declarations rules lexerRules { header with options := options }
    return ⟨← declared.build, lexerRules, options⟩) := by
  simp only [GrammarSource.parse, readSource, bind, Except.bind]
  cases readHeader default 1 (splitSections (Text.linesWithEnds text.toList)).1 with
  | error => rfl
  | ok header =>
      cases readLexerRules ((splitSections (Text.linesWithEnds text.toList)).1.length + 2)
          ((splitSections (Text.linesWithEnds text.toList)).2.map Text.dropLineEnd) with
      | error => rfl
      | ok lexerRules =>
          cases htokens : tokens header.2.1 header.2.2.flatten with
          | error => simp only [htokens]
          | ok found =>
              cases hrules : readRules none found with
              | error => simp only [htokens, hrules]
              | ok rules =>
                  simp only [htokens, hrules]
                  rfl

theorem written_of_readSource {text : String} {header : Header} {lexerRules : List LexerRule} {rules : List NamedRule}
    (h : readSource text = .ok (header, lexerRules, rules)) : ∀ named ∈ rules, WrittenRule named := by
  simp only [readSource, bind, Except.bind, pure, Except.pure] at h
  repeat' split at h
  all_goals cases h
  exact written_mergeRules_readRules ‹_›

theorem declarations_eq {header : Header} {lexerRules : List LexerRule} {first : NamedRule} {rest : List NamedRule} :
    declarations (first :: rest) lexerRules header = .ok (if header.options.whitespace then
      ⟨some paddedStart, alternativesOf (padRules (first :: rest) lexerRules first.1), header.precedences⟩
    else ⟨some first.1, alternativesOf (first :: rest), header.precedences⟩) := rfl

-- A source without whitespace mode, from what was read.
theorem exists_readSource {text : String} {source : GrammarSource} (hp : GrammarSource.parse text false = .ok source)
    (hplain : source.options.whitespace = false) :
    ∃ header first rest, readSource text = .ok (header, source.lexerRules, first :: rest) ∧
      Declarations.build ⟨some first.1, alternativesOf (first :: rest), header.precedences⟩ = .ok source.grammar := by
  rw [parse_eq] at hp
  simp only [bind, Except.bind, pure, Except.pure, Bool.or_false] at hp
  cases hread : readSource text with
  | error => simp [hread] at hp
  | ok read =>
      obtain ⟨header, lexerRules, rules⟩ := read
      cases rules with
      | nil => simp [hread, declarations] at hp
      | cons first rest =>
          simp only [hread, declarations_eq] at hp
          split at hp
          · cases hp
          · rename_i grammar hbuild
            cases hp
            simp only at hplain
            rw [hplain] at hbuild
            exact ⟨header, first, rest, rfl, hbuild⟩

-- No text names the end of the input, whether whitespace mode is on or not.
theorem avoids_finish_of_parse {text : String} {whitespace : Bool} {source : GrammarSource}
    (hp : GrammarSource.parse text whitespace = .ok source) : source.grammar.toRules.Avoids (· == .finish) := by
  rw [parse_eq] at hp
  simp only [bind, Except.bind, pure, Except.pure] at hp
  cases hread : readSource text with
  | error => simp [hread] at hp
  | ok read =>
      obtain ⟨header, lexerRules, rules⟩ := read
      have hwritten := written_of_readSource hread
      cases rules with
      | nil => simp [hread, declarations] at hp
      | cons first rest =>
          simp only [hread, declarations_eq] at hp
          have havoids : ∀ {start : String} {rules : List (String × Alternative)} {grammar : Grammar},
              Declarations.build ⟨some start, rules, header.precedences⟩ = .ok grammar →
              (∀ rule ∈ rules, ∀ symbol ∈ rule.2.symbols, Written symbol) → grammar.toRules.Avoids (· == .finish) := by
            intro start rules grammar hbuild hrules
            obtain ⟨hstart, hproduces⟩ := Declarations.language_build rfl hbuild
            refine (Grammar.Built.declared hbuild).wellFormed.avoids_of_produces (by rw [hstart]; rfl) ?_
            rw [hproduces]
            rintro left right ⟨rule, hr, -, rfl⟩ symbol hs
            refine beq_false_of_ne ?_
            rintro rfl
            rcases hrules rule hr _ (List.mem_filter.mp hs).1 with h | h | h <;> cases h
          split at hp
          · cases hp
          · rename_i grammar hbuild
            cases hp
            split at hbuild
            · exact havoids hbuild fun rule hr => written_padRules hwritten hr
            · refine havoids hbuild fun rule hr => ?_
              obtain ⟨named, hn, -, ha⟩ := mem_alternativesOf.mp hr
              exact (hwritten named hn).2 rule.2 ha

-- Whitespace mode on top of what was read.
theorem parse_true_eq {text : String} {header : Header} {lexerRules : List LexerRule} {first : NamedRule}
    {rest : List NamedRule} {grammar : Grammar} (hread : readSource text = .ok (header, lexerRules, first :: rest))
    (hbuild : Declarations.build
      ⟨some paddedStart, alternativesOf (padRules (first :: rest) lexerRules first.1), header.precedences⟩ =
        .ok grammar) :
    GrammarSource.parse text true = .ok ⟨grammar, lexerRules, { header.options with whitespace := true }⟩ := by
  rw [parse_eq, hread]
  simp only [bind, Except.bind, Bool.or_true, declarations_eq, if_true, hbuild]
  rfl

end Parsing

end Source

open Source

namespace GrammarSource

-- The blank terminals of a source.
def blanks (source : GrammarSource) : List Symbol := Source.blanks source.lexerRules

section Padding

variable {text : String} {source : GrammarSource}

-- Whitespace mode accepts the words of the plain grammar with blanks anywhere in
-- them. The grammar of whitespace mode exists wherever the plain one does.
theorem generates_padded_iff (hp : GrammarSource.parse text false = .ok source)
    (hplain : source.options.whitespace = false) (hwild : source.grammar.toRules.Avoids Symbol.isWildcard)
    (hreserved : ∀ left ∈ reserved, ∀ right, ¬ source.grammar.toRules.Produces left right)
    (hblanks : source.grammar.toRules.Avoids fun symbol => decide (symbol ∈ source.blanks)) :
    ∃ padded, GrammarSource.parse text true = .ok padded ∧
      ∀ word, padded.grammar.toRules.Generates word ↔
        source.grammar.toRules.Generates (erase source.blanks word) := by
  obtain ⟨header, first, rest, hread, hbuild⟩ := exists_readSource hp hplain
  have hw := (Grammar.Built.declared hbuild).wellFormed
  obtain ⟨hstart, hproduces⟩ := Declarations.language_build rfl hbuild
  have hwritten := written_of_readSource hread
  have hrules : Plain (first :: rest) := by
    refine ⟨hwritten, fun named hn he => ?_, fun named hn alternative ha symbol hs => ?_⟩
    · obtain ⟨alternative, ha⟩ := List.exists_mem_of_ne_nil _ (hwritten named hn).1
      have hproduced : Declarations.Produces ⟨some first.1, _, header.precedences⟩ _ _ := produces_of_mem hn ha
      rw [← hproduces, he] at hproduced
      exact hreserved (.nonterminal commentRule) (by simp [reserved]) _ hproduced
    · refine hwild.of_produces (hproduces ▸ produces_of_mem hn ha) (List.mem_filter.mpr ⟨hs, ?_⟩)
      exact bne_iff_ne.mpr ((hwritten named hn).2 alternative ha symbol hs).ne_epsilon
  obtain ⟨grammar, hpadded⟩ := (hrules.complete_padRules (Declarations.complete_of_build rfl hbuild)).exists_build
  obtain ⟨hstart', hproduces'⟩ := Declarations.language_build rfl hpadded
  refine ⟨_, parse_true_eq hread hpadded, fun word => ?_⟩
  rw [Rules.Generates, Rules.Generates, hstart, hstart', hproduces', hrules.produces_padRules, ← hproduces]
  -- a nonterminal that has a production is none of the new ones
  have hnonterminal : ∀ {left right}, source.grammar.toRules.Produces left right → Fit source.blanks left := by
    intro left right h
    have hn := hw.isNonterminal_of_produces h
    refine ⟨fun hb => ?_, ?_, ?_, Or.inl hn⟩
    · have ht := isTerminal_of_mem_blanks hb
      rw [Symbol.isTerminal, hn] at ht
      cases ht
    · rintro rfl
      exact hreserved _ (by simp [reserved]) _ h
    · rintro rfl
      exact hreserved _ (by simp [reserved]) _ h
  refine yields_padded_iff (fun left right h => ⟨hw.isNonterminal_of_produces h, hnonterminal h⟩)
    (fun left right h symbol hs => ?_) (fun blank => isTerminal_of_mem_blanks) ?_
  · by_cases hn : symbol.isNonterminal = true
    · obtain ⟨below, hbelow⟩ := hw.exists_produces h hs hn
      exact hnonterminal hbelow
    · have hblank : symbol ∉ source.blanks := of_decide_eq_false (hblanks.of_produces h hs)
      obtain ⟨rule, hr, -, rfl⟩ := hproduces ▸ h
      obtain ⟨hsymbol, hwildcard⟩ := hrules.written_of_mem hr (List.mem_filter.mp hs).1
      refine ⟨hblank, fun he => hn (he ▸ rfl), fun he => hn (he ▸ rfl), Or.inr ?_⟩
      exact (hsymbol.resolve_left hn).resolve_right (by simp [hwildcard])
  · obtain ⟨rule, hr, hname⟩ := (Declarations.complete_of_build rfl hbuild).start_declared
    have hproduced : Declarations.Produces _ (.nonterminal rule.1) _ := ⟨rule, hr, rfl, rfl⟩
    rw [← hproduces, hname] at hproduced
    exact hnonterminal hproduced

theorem not_produces_of_all {rules : Rules} {left : Symbol}
    (h : (rules.productions.toList.all fun production => production.left.map rules.symbol != some left) = true)
    (right : List Symbol) : ¬ rules.Produces left right := by
  rintro ⟨production, id, hleft, rfl, -⟩
  obtain ⟨hlt, -⟩ := Rules.mem_alternatives.mp (Rules.mem_alternatives_of_left hleft)
  have hmem : rules.production production ∈ rules.productions.toList := by
    simp [Rules.production, hlt]
  have hne := List.all_eq_true.mp h _ hmem
  simp [hleft] at hne

-- Ambiguous sums with embedded documents and an empty alternative.
def spaced : String :=
  "E ::= E \"plus\" E | N <sub> |\nN ::= \"INT\"\n%%\nINT:\"[0-9]+\"\nplus:\"\\+\"\n<ws>:\"[ ]+\"\n<return>:\"\\n\"\n"

theorem generates_padded_iff_spaced :
    ∃ source, GrammarSource.parse spaced false = .ok source ∧ source.options.whitespace = false ∧
      source.grammar.toRules.Avoids Symbol.isWildcard ∧
      (∀ left ∈ reserved, ∀ right, ¬ source.grammar.toRules.Produces left right) ∧
      source.blanks = [.terminal "<ws>", .terminal "<return>"] ∧
      (source.grammar.toRules.Avoids fun symbol => decide (symbol ∈ source.blanks)) ∧
      ∃ padded, GrammarSource.parse spaced true = .ok padded ∧
        ∀ word, padded.grammar.toRules.Generates word ↔
          source.grammar.toRules.Generates (erase source.blanks word) := by
  have hparse : ((GrammarSource.parse spaced false).toOption.any fun source =>
      !source.options.whitespace && decide (source.blanks = [.terminal "<ws>", .terminal "<return>"]) &&
        (source.grammar.productions.toList.all fun production => production.right.all fun symbol =>
          !(source.grammar.symbol symbol).isWildcard) &&
        (source.grammar.productions.toList.all fun production => production.right.all fun symbol =>
          !decide (source.grammar.symbol symbol ∈ source.blanks)) &&
        reserved.all fun left => source.grammar.productions.toList.all fun production =>
          production.left.map source.grammar.symbol != some left) = true := by
    decide +kernel
  obtain ⟨source, hp, hchecks⟩ := exists_of_toOption_any hparse
  simp only [Bool.and_eq_true, Bool.not_eq_true', decide_eq_true_eq] at hchecks
  obtain ⟨⟨⟨⟨hplain, hnames⟩, hwild⟩, hblanks⟩, hreserved⟩ := hchecks
  have hwild := Rules.avoids_of_all hwild
  have hblanks : source.grammar.toRules.Avoids fun symbol => decide (symbol ∈ source.blanks) :=
    Rules.avoids_of_all hblanks
  have hreserved : ∀ left ∈ reserved, ∀ right, ¬ source.grammar.toRules.Produces left right := fun left hl =>
    not_produces_of_all (List.all_eq_true.mp hreserved left hl)
  exact ⟨source, hp, hplain, hwild, hreserved, hnames, hblanks,
    generates_padded_iff hp hplain hwild hreserved hblanks⟩

end Padding

end GrammarSource

end IncrementalLR
