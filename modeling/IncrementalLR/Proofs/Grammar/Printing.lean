import IncrementalLR.Grammar.Printer
import IncrementalLR.Proofs.Grammar.Notation

namespace IncrementalLR

open Text

namespace Source

-- A name with the right sides of its alternatives.
abbrev Definition := String × List (List Symbol)

-- The token that stands for a symbol.
def tokenOf : Symbol → Token
  | .terminal name => .terminal name
  | .magic name => .magic name
  | symbol => .name symbol.name

-- Symbols that are read as they are written.
def Printable (symbol : Symbol) : Prop :=
  Legible symbol ∧ symbol ≠ .nonterminal "ANY" ∧ symbol ≠ .nonterminal "ANYNCR"

structure Definition.Printable (definition : Definition) : Prop where
  name : IsName definition.1.toList
  nonempty : definition.2 ≠ []
  symbols : ∀ symbols ∈ definition.2, ∀ symbol ∈ symbols, Source.Printable symbol

section Texts

def symbolsText (symbols : List Symbol) : List Char := symbols.flatMap fun symbol => ' ' :: symbol.display.toList

def alternativeText (symbols : List Symbol) : List Char := if symbols.isEmpty then [' '] else symbolsText symbols

-- The text of a rule from the line feed before it to the semicolon behind it.
def ruleText (definition : Definition) : List Char :=
  '\n' :: (definition.1.toList ++ " ::=".toList ++
    "\n    |".toList.intercalate (definition.2.map alternativeText) ++ "\n    ;".toList)

def alternativesTokens (alternatives : List (List Symbol)) : List Token :=
  [.alternative].intercalate (alternatives.map (·.map tokenOf))

def ruleTokens (definition : Definition) : List Token :=
  .name definition.1 :: .mapsTo :: (alternativesTokens definition.2 ++ [.semicolon])

-- A piece of a printed grammar. No name goes on into it, it is read to its end, and it
-- ends no line with a mark.
structure Renders (piece : List Char) (found : List Token) : Prop where
  bounded : ∀ rest, Bounded rest → Bounded (piece ++ rest)
  scans : ∀ rest more, Bounded rest → Scans rest more → Scans (piece ++ rest) (found ++ more)
  unmarked : ∀ rest, Unmarked rest → Unmarked (piece ++ rest)

end Texts

section Renders

variable {piece other : List Char} {found more : List Token}

theorem renders_nil : Renders [] [] := ⟨fun _ h => h, fun _ _ _ h => h, fun _ h => h⟩

theorem Renders.append (hp : Renders piece found) (ho : Renders other more) :
    Renders (piece ++ other) (found ++ more) := by
  constructor
  case bounded =>
    intro rest h
    rw [List.append_assoc]
    exact hp.bounded _ (ho.bounded _ h)
  case scans =>
    intro rest others hb h
    rw [List.append_assoc, List.append_assoc]
    exact hp.scans _ _ (ho.bounded _ hb) (ho.scans _ _ hb h)
  case unmarked =>
    intro rest h
    rw [List.append_assoc]
    exact hp.unmarked _ (ho.unmarked _ h)

theorem bounded_cons {c : Char} {rest : List Char} (hc : isBlank c = true) : Bounded (c :: rest) := by
  rintro d ⟨⟩
  by_contra hname
  rw [not_isBlank_of_isNameChar (Bool.not_eq_false _ ▸ hname)] at hc
  cases hc

theorem Scans.blanks {front rest : List Char} (hf : ∀ c ∈ front, isBlank c = true) (h : Scans rest found) :
    Scans (front ++ rest) found := by
  induction front with
  | nil => exact h
  | cons c front ih =>
      obtain ⟨hc, hfront⟩ := List.forall_mem_cons.mp hf
      exact (ih hfront).blank hc

theorem renders_blank : Renders [' '] [] := by
  constructor
  case bounded => exact fun rest _ => bounded_cons (by decide)
  case scans => exact fun rest more _ h => h.blank (by decide)
  case unmarked => exact fun rest h => h.append (by decide)

theorem renders_mapsTo : Renders " ::=".toList [.mapsTo] := by
  constructor
  case bounded => exact fun rest _ => bounded_cons (by decide)
  case scans => exact fun rest more _ h => (h.fixed (by decide) rfl).blank (by decide)
  case unmarked => exact fun rest h => h.append (by decide)

-- The sign that begins the next alternative, or that ends the rule.
theorem renders_sign {sign : Char} {token : Token} (hsign : sign ∈ signs) (hne : sign ≠ '%')
    (hf : ∀ rest, fixedToken? (sign :: rest) = some (token, rest)) :
    Renders ("\n    ".toList ++ [sign]) [token] := by
  constructor
  case bounded => exact fun rest _ => bounded_cons (by decide)
  case scans =>
    intro rest more _ h
    rw [List.append_assoc]
    exact (h.fixed (not_isBlank_of_mem_signs hsign) (hf rest)).blanks
      (List.all_eq_true.mp (by decide))
  case unmarked =>
    intro rest h
    rw [List.append_assoc]
    exact Unmarked.append_cons (unmarked_of_not_mem (by decide)) h (not_isBlank_of_mem_signs hsign) hne

theorem renders_name {name : String} (h : IsName name.toList) {blank : Char} (hb : isBlank blank = true) :
    Renders (blank :: name.toList) [.name name] := by
  constructor
  case bounded => exact fun rest _ => bounded_cons hb
  case scans =>
    intro rest more hbounded hs
    have hname := hs.name h hbounded
    rw [String.ofList_toList] at hname
    exact hname.blank hb
  case unmarked =>
    intro rest hu
    -- the first character of the name keeps the lines apart
    obtain ⟨c, others, hname⟩ := List.exists_cons_of_ne_nil h.1
    rw [hname]
    have hchars : ∀ d ∈ c :: others, isNameChar d = true := fun d hd => h.2 d (hname ▸ hd)
    obtain ⟨hc, hothers⟩ := List.forall_mem_cons.mp hchars
    have hfeed : '\n' ∉ others := fun hm =>
      ne_feed_of_not_isBlank (not_isBlank_of_isNameChar (hothers _ hm)) rfl
    have hpercent : c ≠ '%' := fun he => not_mem_signs_of_isNameChar hc (he ▸ by decide)
    have hblank : '%' ∉ [blank] := fun hm => by
      rw [← List.mem_singleton.mp hm] at hb
      exact absurd hb (by decide)
    exact (unmarked_of_not_mem hblank).append_cons (hu.append hfeed) (not_isBlank_of_isNameChar hc) hpercent

theorem renders_closed {c close : Char} {part : OpenPart} {body : List Char} (ho : openPart? c = some (close, part))
    (hbody : close ∉ body) (hunmarked : Unmarked body) : Renders (' ' :: c :: (body ++ [close])) [closedToken part body] := by
  obtain ⟨hc, hclose, hpercent, -⟩ := openPart?_spec ho
  have hfeed : '\n' ∉ [' ', c] := by
    simp [(ne_feed_of_not_isBlank (not_isBlank_of_mem_signs hc)).symm]
  constructor
  case bounded => exact fun rest _ => bounded_cons (by decide)
  case scans =>
    intro rest more _ h
    have hclosed := h.closed ho hbody
    rw [List.cons_append, List.cons_append, List.append_assoc]
    exact hclosed.blank (by decide)
  case unmarked =>
    intro rest hu
    have hline := hunmarked.append_cons hu (not_isBlank_of_mem_signs hclose) hpercent
    rw [List.cons_append, List.cons_append, List.append_assoc]
    exact Unmarked.append hfeed hline

theorem renders_symbol {symbol : Symbol} (h : Legible symbol) :
    Renders (' ' :: symbol.display.toList) [tokenOf symbol] := by
  have hblank : isBlank ' ' = true := by decide
  cases symbol with
  | terminal name =>
      have hrenders := renders_closed (show openPart? '"' = some ('"', .terminal) from rfl) h.1 h.2
      simpa [Symbol.display, closedToken, tokenOf] using hrenders
  | magic name =>
      have hrenders := renders_closed (show openPart? '<' = some ('>', .magicTerminal) from rfl) h.1 h.2
      simpa [Symbol.display, closedToken, tokenOf] using hrenders
  | nonterminal name => exact renders_name h hblank
  | wildcard reach => cases reach <;> exact renders_name (isName_of_all (by decide)) hblank
  | epsilon | finish | indentation => exact h.elim

theorem renders_symbols {symbols : List Symbol} (h : ∀ symbol ∈ symbols, Legible symbol) :
    Renders (symbolsText symbols) (symbols.map tokenOf) := by
  induction symbols with
  | nil => exact renders_nil
  | cons symbol rest ih =>
      obtain ⟨hsymbol, hrest⟩ := List.forall_mem_cons.mp h
      exact (renders_symbol hsymbol).append (ih hrest)

theorem renders_alternative {symbols : List Symbol} (h : ∀ symbol ∈ symbols, Legible symbol) :
    Renders (alternativeText symbols) (symbols.map tokenOf) := by
  unfold alternativeText
  split
  · rename_i hempty
    rw [List.isEmpty_iff.mp hempty]
    exact renders_blank
  · exact renders_symbols h

theorem renders_alternatives {alternatives : List (List Symbol)}
    (h : ∀ symbols ∈ alternatives, ∀ symbol ∈ symbols, Legible symbol) :
    Renders ("\n    |".toList.intercalate (alternatives.map alternativeText)) (alternativesTokens alternatives) := by
  induction alternatives with
  | nil => exact renders_nil
  | cons first rest ih =>
      obtain ⟨hfirst, hrest⟩ := List.forall_mem_cons.mp h
      cases rest with
      | nil =>
          simp only [alternativesTokens, List.map_cons, List.map_nil, List.intercalate_singleton]
          exact renders_alternative hfirst
      | cons next rest =>
          have hbar : Renders "\n    |".toList [.alternative] := renders_sign (by decide) (by decide) fun _ => rfl
          simp only [alternativesTokens, List.map_cons, List.intercalate_cons_cons]
          exact ((renders_alternative hfirst).append hbar).append (ih hrest)

theorem renders_rule {definition : Definition} (h : definition.Printable) :
    Renders (ruleText definition) (ruleTokens definition) := by
  have hname := renders_name h.name (show isBlank '\n' = true by decide)
  have halternatives := renders_alternatives fun symbols hs symbol hm => (h.symbols symbols hs symbol hm).1
  have hsemicolon : Renders "\n    ;".toList [.semicolon] := renders_sign (by decide) (by decide) fun _ => rfl
  have hrule := ((hname.append renders_mapsTo).append halternatives).append hsemicolon
  simpa [ruleText, ruleTokens] using hrule

theorem renders_rules {definitions : List Definition} (h : ∀ definition ∈ definitions, definition.Printable) :
    Renders (definitions.flatMap ruleText) (definitions.flatMap ruleTokens) := by
  induction definitions with
  | nil => exact renders_nil
  | cons definition rest ih =>
      obtain ⟨hdefinition, hrest⟩ := List.forall_mem_cons.mp h
      exact (renders_rule hdefinition).append (ih hrest)

end Renders

-- The rules that are read of tokens, whatever lines they are on.
def Parses (rule : Option OpenRule) (found : List Token) (rules : List NamedRule) : Prop :=
  ∀ numbered : List (Token × Nat), numbered.map Prod.fst = found → readRules rule numbered = .ok rules

-- A definition as it is read, without tags and templates.
def plainAlternative (symbols : List Symbol) : Alternative := ⟨symbols, none, none⟩

def Definition.rule (definition : Definition) : NamedRule := (definition.1, definition.2.map plainAlternative)

section Parses

variable {rule : OpenRule} {found : List Token} {rules : List NamedRule}

theorem parses_nil : Parses none [] [] := by
  intro numbered hn
  rw [List.map_eq_nil_iff.mp hn]
  rfl

theorem Parses.cons {opened : Option OpenRule} {token : Token}
    (h : ∀ line others, others.map Prod.fst = found → readRules opened ((token, line) :: others) = .ok rules) :
    Parses opened (token :: found) rules := by
  intro numbered hn
  obtain ⟨⟨token, line⟩, others, rfl, rfl, ho⟩ := List.map_eq_cons_iff.mp hn
  exact h line others ho

theorem Parses.start {name : String} (h : Parses (some (.start name)) found rules) :
    Parses none (.name name :: .mapsTo :: found) rules := by
  refine Parses.cons fun line others ho => ?_
  obtain ⟨⟨token, next⟩, others, rfl, rfl, hrest⟩ := List.map_eq_cons_iff.mp ho
  rw [readRules, h others hrest]
  rfl

theorem Parses.symbol {symbol : Symbol} (hs : Printable symbol) (hnext : found.head? ≠ some .mapsTo)
    (h : Parses (some (rule.addSymbol symbol)) found rules) : Parses (some rule) (tokenOf symbol :: found) rules := by
  obtain ⟨hlegible, hany, hanyncr⟩ := hs
  refine Parses.cons fun line others ho => ?_
  have hothers : ∀ line rest, others ≠ (.mapsTo, line) :: rest := by
    rintro line rest rfl
    exact hnext (ho ▸ rfl)
  have hname : ∀ name, readRules (some rule) ((.name name, line) :: others) =
      readRules (some (rule.addSymbol (nameSymbol name))) others := fun name => by
    rw [readRules]
    exact fun _ next rest he _ => hothers next rest he
  cases symbol with
  | terminal name | magic name =>
      rw [tokenOf, readRules]
      exact h others ho
  | nonterminal name =>
      refine (hname name).trans ?_
      rw [nameSymbol, if_neg (mt (congrArg Symbol.nonterminal) hany), if_neg (mt (congrArg Symbol.nonterminal) hanyncr)]
      exact h others ho
  | wildcard reach => cases reach <;> exact (hname _).trans (h others ho)
  | epsilon | finish | indentation => exact hlegible.elim

theorem Parses.bar (h : Parses (some rule.nextAlternative) found rules) :
    Parses (some rule) (.alternative :: found) rules := by
  refine Parses.cons fun line others ho => ?_
  rw [readRules]
  exact h others ho

theorem Parses.semicolon (h : Parses none found rules) :
    Parses (some rule) (.semicolon :: found) (rule.close :: rules) := by
  refine Parses.cons fun line others ho => ?_
  rw [readRules, h others ho]
  rfl

theorem Parses.symbols {symbols : List Symbol} (hs : ∀ symbol ∈ symbols, Printable symbol)
    (hnext : found.head? ≠ some .mapsTo)
    (h : Parses (some { rule with current := { rule.current with symbols := rule.current.symbols ++ symbols } })
      found rules) : Parses (some rule) (symbols.map tokenOf ++ found) rules := by
  induction symbols generalizing rule with
  | nil => simpa using h
  | cons symbol rest ih =>
      obtain ⟨hsymbol, hrest⟩ := List.forall_mem_cons.mp hs
      refine Parses.symbol hsymbol ?_ (ih hrest (by simpa [OpenRule.addSymbol] using h))
      cases rest with
      | nil => exact hnext
      | cons other rest => cases other <;> simp [tokenOf]

-- All alternatives of a rule up to its end.
theorem Parses.alternatives {name : String} {finished : List Alternative} {alternatives : List (List Symbol)}
    (hne : alternatives ≠ []) (hs : ∀ symbols ∈ alternatives, ∀ symbol ∈ symbols, Printable symbol)
    (h : Parses none found rules) :
    Parses (some ⟨name, finished, default⟩) (alternativesTokens alternatives ++ .semicolon :: found)
      ((name, finished ++ alternatives.map plainAlternative) :: rules) := by
  induction alternatives generalizing finished with
  | nil => exact absurd rfl hne
  | cons first rest ih =>
      obtain ⟨hfirst, hrest⟩ := List.forall_mem_cons.mp hs
      cases rest with
      | nil =>
          simp only [alternativesTokens, List.map_cons, List.map_nil, List.intercalate_singleton]
          exact Parses.symbols hfirst (by simp) (Parses.semicolon h)
      | cons next rest =>
          have hmore := @ih (finished ++ [plainAlternative first]) (by simp) hrest
          simp only [alternativesTokens, List.map_cons, List.intercalate_cons_cons, List.append_assoc] at hmore ⊢
          exact Parses.symbols hfirst (by simp) (Parses.bar hmore)

theorem Parses.definition {definition : Definition} (hd : definition.Printable) (h : Parses none found rules) :
    Parses none (ruleTokens definition ++ found) (definition.rule :: rules) := by
  rw [ruleTokens, List.cons_append, List.cons_append, List.append_assoc]
  exact Parses.start (Parses.alternatives hd.nonempty hd.symbols h)

theorem parses_rules {definitions : List Definition} (h : ∀ definition ∈ definitions, definition.Printable) :
    Parses none (definitions.flatMap ruleTokens) (definitions.map Definition.rule) := by
  induction definitions with
  | nil => exact parses_nil
  | cons definition rest ih =>
      obtain ⟨hdefinition, hrest⟩ := List.forall_mem_cons.mp h
      exact Parses.definition hdefinition (ih hrest)

end Parses

section Reading

theorem foldl_mergeRule {merged rules : List NamedRule} (h : ((merged ++ rules).map (·.1)).Nodup) :
    rules.foldl mergeRule merged = merged ++ rules := by
  induction rules generalizing merged with
  | nil => simp
  | cons rule rest ih =>
      have hnew : merged.any (·.1 == rule.1) = false := by
        rw [List.any_eq_false]
        intro other ho he
        rw [List.map_append, List.map_cons] at h
        exact List.disjoint_of_nodup_append h (List.mem_map_of_mem ho) (beq_iff_eq.mp he ▸ List.mem_cons_self)
      have hstep : mergeRule merged rule = merged ++ [rule] := by simp [mergeRule, hnew]
      rw [List.append_cons] at h ⊢
      rw [List.foldl_cons, hstep, ih h]

-- Rules of different names stay apart.
theorem mergeRules_eq_self {rules : List NamedRule} (h : (rules.map (·.1)).Nodup) : mergeRules rules = rules :=
  foldl_mergeRule h

-- A line that begins with a name ends the directives.
theorem readHeader_of_isNameChar {header : Header} {line : Nat} {c : Char} {rest : List Char} (hc : isNameChar c = true) :
    readHeader header line (linesWithEnds (c :: rest)) = .ok (header, line, linesWithEnds (c :: rest)) := by
  have hblank := not_isBlank_of_isNameChar hc
  obtain ⟨first, others, hlines⟩ : ∃ first others, linesWithEnds (c :: rest) = (c :: first) :: others := by
    rw [linesWithEnds, if_neg (ne_feed_of_not_isBlank hblank)]
    split
    · exact ⟨_, _, rfl⟩
    · exact ⟨_, _, rfl⟩
  obtain ⟨trimmed, htrim⟩ : ∃ trimmed, trim (c :: first) = c :: trimmed := by
    rw [trim, trimLeft, List.dropWhile_cons_of_neg (by simp [hblank]), trimRight, List.reverse_cons,
      List.dropWhile_append]
    split
    · exact ⟨[], by simp [hblank]⟩
    · exact ⟨_, by rw [List.reverse_append]; rfl⟩
  have hpercent : c ≠ '%' := fun he => not_mem_signs_of_isNameChar hc (he ▸ by decide)
  rw [hlines, readHeader, htrim]
  split
  · rename_i he
    cases he
  · rename_i he
    exact absurd (List.cons.inj he).1 hpercent
  · rfl

variable {definitions : List Definition} {text : String}

-- What is printed is read as it was, without directives and without lexer rules.
theorem readSource_printed (hne : definitions ≠ []) (h : ∀ definition ∈ definitions, definition.Printable)
    (hnodup : (definitions.map (·.1)).Nodup)
    (htext : '\n' :: text.toList = definitions.flatMap ruleText ++ ['\n']) :
    readSource text = .ok (default, [], definitions.map Definition.rule) := by
  have hrenders := renders_rules h
  have hsections : splitSections (linesWithEnds text.toList) = (linesWithEnds text.toList, []) := by
    refine splitSections_of_unmarked ?_
    rw [← List.cons_append, htext, List.append_assoc]
    exact hrenders.unmarked _ (unmarked_of_not_mem (by decide))
  have hheader : readHeader default 1 (linesWithEnds text.toList) = .ok (default, 1, linesWithEnds text.toList) := by
    obtain ⟨definition, rest, rfl⟩ := List.exists_cons_of_ne_nil hne
    obtain ⟨c, name, hname⟩ := List.exists_cons_of_ne_nil (h definition List.mem_cons_self).name.1
    rw [List.flatMap_cons, ruleText, hname] at htext
    rw [(List.cons.inj htext).2]
    exact readHeader_of_isNameChar ((h definition List.mem_cons_self).name.2 c (hname ▸ List.mem_cons_self))
  obtain ⟨numbered, htokens, hfound⟩ : ∃ numbered, tokens 1 text.toList = .ok numbered ∧
      numbered.map Prod.fst = definitions.flatMap ruleTokens := by
    have hscans := hrenders.scans ['\n'] [] (bounded_cons (by decide)) (scans_nil.blank (by decide)) 0
    rw [← htext, tokens, if_pos rfl, List.append_nil] at hscans
    exact hscans
  have hrules := parses_rules h numbered hfound
  have hmerge : mergeRules (definitions.map Definition.rule) = definitions.map Definition.rule :=
    mergeRules_eq_self (by rw [List.map_map]; exact hnodup)
  simp only [readSource, hsections, hheader, bind, Except.bind, flatten_linesWithEnds, htokens, hrules, hmerge]
  rfl

end Reading

end Source

end IncrementalLR
