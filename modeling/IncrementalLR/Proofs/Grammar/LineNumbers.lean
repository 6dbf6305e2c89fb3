import IncrementalLR.Proofs.Grammar.Positions
import IncrementalLR.Proofs.Grammar.Whitespace

namespace IncrementalLR

section Building

variable {error : GrammarError}

namespace Declarations

-- What is wrong with a grammar as a whole is on no line.
theorem line?_productionOf {vocabulary : List Symbol} {rule : String × Alternative}
    (h : productionOf vocabulary rule = .error error) : error.line? = none := by
  simp only [productionOf, bind, Except.bind, pure, Except.pure, throw, throwThe, MonadExceptOf.throw] at h
  split at h
  · cases h
  · split at h
    · cases h
    · cases h
      rfl

theorem line?_mapM {vocabulary : List Symbol} {rules : List (String × Alternative)}
    (h : rules.mapM (productionOf vocabulary) = .error error) : error.line? = none := by
  induction rules with
  | nil => cases h
  | cons rule rest ih =>
      rw [List.mapM_cons] at h
      cases hrule : productionOf vocabulary rule with
      | error other =>
          rw [hrule] at h
          cases h
          exact line?_productionOf hrule
      | ok production =>
          rw [hrule] at h
          cases hrest : rest.mapM (productionOf vocabulary) with
          | error other =>
              simp only [hrest, bind, Except.bind] at h
              cases h
              exact ih hrest
          | ok others =>
              simp only [hrest, bind, Except.bind] at h
              cases h

theorem line?_undefined? {rules : Rules} (h : rules.undefined? = some error) : error.line? = none := by
  obtain ⟨production, -, h⟩ := List.exists_of_findSome?_eq_some h
  obtain ⟨id, -, h⟩ := List.exists_of_findSome?_eq_some h
  split at h
  · cases h
    rfl
  · cases h

theorem line?_build {declarations : Declarations} (h : declarations.build = .error error) : error.line? = none := by
  unfold build at h
  split at h
  · cases h
    rfl
  · simp only [bind, Except.bind, pure, Except.pure] at h
    split at h
    · cases h
      exact line?_mapM ‹_›
    · split at h
      · cases h
        rfl
      · split at h
        · cases h
          exact line?_undefined? ‹_›
        · cases h

end Declarations

theorem Source.line?_declarations {rules : List NamedRule} {lexerRules : List LexerRule} {header : Header}
    (h : declarations rules lexerRules header = .error error) : error.line? = none := by
  unfold declarations at h
  split at h
  · cases h
    rfl
  · cases h

end Building

namespace Source

open Text

-- A text up to its mark, as its header and the rules behind that.
structure Divides (text head body : List Char) : Prop where
  whole : rulePart text = head ++ body
  header : ∃ header, IsHeader head header
  rules : ∀ first ∈ (linesWithEnds body).head?, trim first ≠ [] ∧ (trim first).head? ≠ some '%'

-- What keeps a text from being read as a grammar, behind all that stands before it.
inductive Offends (text : List Char) : List Char → GrammarError → Prop
  | directive {front content back directive : List Char} {header : Header} : IsHeader front header →
      IsLine (rulePart text) front content back → trim content = '%' :: directive →
        readDirective? header directive = none →
          Offends text front (.malformedOption (lineBehind front) (String.ofList directive))
  | lexerRule {front above content : List Char} : LexerLine text front above content →
      (∀ other ∈ linesWithEnds above, trim other = [] ∨ ∃ rule : LexerRule, rule.WrittenAs other) →
        trim content ≠ [] → (∀ rule : LexerRule, ¬ rule.WrittenAs content) →
          Offends text front (.malformedLexerRule (lineBehind front) (String.ofList (trim content)))
  | character {head front back : List Char} {found : List Token} {error : GrammarError} :
      Divides text head (front ++ back) → Scans front found → Unread (lineBehind (head ++ front)) back error →
        Offends text (head ++ front) error
  | token {head body front : List Char} {before after : List Token} {token : Token} {error : GrammarError} :
      Divides text head body → Scans body (before ++ token :: after) → Stands body front before token →
        Misread (lineBehind (head ++ front)) before token after error → Offends text (head ++ front) error

section Parsing
variable {text : String} {whitespace : Bool} {source : GrammarSource} {error : GrammarError}
  {ruleLines lexerLines : List (List Char)}

theorem readLexerRules_of_parse (hsections : splitSections (linesWithEnds text.toList) = (ruleLines, lexerLines))
    (h : GrammarSource.parse text whitespace = .ok source) :
    readLexerRules (ruleLines.length + 2) (lexerLines.map dropLineEnd) = .ok source.lexerRules := by
  simp only [GrammarSource.parse, hsections, bind, Except.bind, pure, Except.pure] at h
  repeat' split at h
  all_goals cases h
  assumption

-- A failure with a line comes of the header, of the lexer rules, of the tokens or of the order of the tokens.
theorem failure_of_parse {line : Nat} (hsections : splitSections (linesWithEnds text.toList) = (ruleLines, lexerLines))
    (h : GrammarSource.parse text whitespace = .error error) (hline : error.line? = some line) :
    readHeader default 1 ruleLines = .error error ∨
      readLexerRules (ruleLines.length + 2) (lexerLines.map dropLineEnd) = .error error ∨
      ∃ header next body, readHeader default 1 ruleLines = .ok (header, next, body) ∧
        (tokens next body.flatten = .error error ∨
          ∃ numbered, tokens next body.flatten = .ok numbered ∧ readRules none numbered = .error error) := by
  simp only [GrammarSource.parse, hsections, bind, Except.bind, pure, Except.pure] at h
  split at h
  · cases h
    exact Or.inl ‹_›
  · rename_i read hread
    split at h
    · cases h
      exact Or.inr (Or.inl ‹_›)
    · refine Or.inr (Or.inr ⟨read.1, read.2.1, read.2.2, hread, ?_⟩)
      split at h
      · cases h
        exact Or.inl ‹_›
      · refine Or.inr ⟨_, ‹_›, ?_⟩
        split at h
        · cases h
          assumption
        · split at h
          · cases h
            have := line?_declarations ‹_›
            simp_all
          · split at h
            · cases h
              have := Declarations.line?_build ‹_›
              simp_all
            · cases h

theorem LexerRule.writtenAs_congr {rule : LexerRule} {first second : List Char} (h : trim first = trim second) :
    rule.WrittenAs first ↔ rule.WrittenAs second :=
  ⟨fun ⟨hparts, hnamed, hmatching⟩ => ⟨h ▸ hparts, hnamed, hmatching⟩,
    fun ⟨hparts, hnamed, hmatching⟩ => ⟨h ▸ hparts, hnamed, hmatching⟩⟩

theorem lineBehind_append (front back : List Char) :
    lineBehind (front ++ back) = lineBehind front + back.count '\n' := by
  rw [lineBehind, lineBehind, List.count_append]
  omega

theorem exists_lexerLine (hsections : splitSections (linesWithEnds text.toList) = (ruleLines, lexerLines))
    (h : GrammarSource.parse text whitespace = .ok source) :
    ∀ rule ∈ source.lexerRules, ∃ front above content, LexerLine text.toList front above content ∧
      rule.WrittenAs content ∧ rule.line = lineBehind front := by
  intro rule hrule
  obtain ⟨-, above, first, below, hlines, hwritten, hline⟩ :=
    (readLexerRules_eq_ok (readLexerRules_of_parse hsections h)).2 rule hrule
  obtain ⟨above, others, rfl, rfl, hothers⟩ := List.map_eq_append_iff.mp hlines
  obtain ⟨first, below, rfl, rfl, -⟩ := List.map_eq_cons_iff.mp hothers
  obtain ⟨front, content, hplace, htrim, hnumber⟩ := lexerLine_of_append hsections
  refine ⟨front, above.flatten, content, hplace, ?_, ?_⟩
  · exact (LexerRule.writtenAs_congr ((trim_dropLineEnd first).trans htrim)).mp hwritten
  · rw [hline, hnumber, List.length_map]

theorem offends_of_readHeader (hsections : splitSections (linesWithEnds text.toList) = (ruleLines, lexerLines))
    (h : readHeader default 1 ruleLines = .error error) : ∃ front, Offends text.toList front error := by
  obtain ⟨header, above, first, below, directive, rfl, hread, htrim, hnone, rfl⟩ := readHeader_eq_error h
  have hlines := (rulePart_lines hsections).1
  obtain ⟨content, back, hline, hcontent, hcount⟩ := exists_isLine hlines
  have hnumber : 1 + above.length = lineBehind above.flatten := by
    rw [lineBehind, hcount, Nat.add_comm]
  have hheader : IsHeader above.flatten header := by
    have habove := (linesWithEnds_flatten hlines).1
    exact ⟨_, by rw [habove]; exact hread⟩
  rw [hnumber]
  exact ⟨_, .directive hheader hline (hcontent ▸ htrim) hnone⟩

theorem offends_of_readLexerRules (hsections : splitSections (linesWithEnds text.toList) = (ruleLines, lexerLines))
    (h : readLexerRules (ruleLines.length + 2) (lexerLines.map dropLineEnd) = .error error) :
    ∃ front, Offends text.toList front error := by
  obtain ⟨above, first, below, hlines, habove, hne, hnone, rfl⟩ := readLexerRules_eq_error h
  obtain ⟨above, others, rfl, rfl, hothers⟩ := List.map_eq_append_iff.mp hlines
  obtain ⟨first, below, rfl, rfl, -⟩ := List.map_eq_cons_iff.mp hothers
  obtain ⟨front, content, hplace, htrim, hnumber⟩ := lexerLine_of_append hsections
  have hcontent := (trim_dropLineEnd first).trans htrim
  rw [List.length_map, ← hnumber, hcontent]
  refine ⟨front, .lexerRule hplace (fun other hother => ?_) (hcontent ▸ hne) fun rule hwritten => ?_⟩
  · rw [linesWithEnds_above hsections] at hother
    have htrim := trim_dropLineEnd other
    rcases habove _ (List.mem_map_of_mem hother) with hblank | ⟨rule, hwritten⟩
    · exact Or.inl (htrim ▸ hblank)
    · exact Or.inr ⟨rule, (LexerRule.writtenAs_congr htrim).mp hwritten⟩
  · exact hnone rule ((LexerRule.writtenAs_congr hcontent).mpr hwritten)

theorem offends_of_tokens {header : Header} {next : Nat} {body : List (List Char)}
    (hsections : splitSections (linesWithEnds text.toList) = (ruleLines, lexerLines))
    (hheader : readHeader default 1 ruleLines = .ok (header, next, body))
    (h : tokens next body.flatten = .error error ∨
      ∃ numbered, tokens next body.flatten = .ok numbered ∧ readRules none numbered = .error error) :
    ∃ front, Offends text.toList front error := by
  obtain ⟨above, rfl, hread, rfl, hrules⟩ := readHeader_eq_ok hheader
  have hlines := (rulePart_lines hsections).1
  obtain ⟨habove, hbody⟩ := linesWithEnds_flatten hlines
  have hdivides : Divides text.toList above.flatten body.flatten :=
    ⟨by rw [rulePart, hsections, List.flatten_append], ⟨header, _, by rw [habove]; exact hread⟩, by rwa [hbody]⟩
  cases body with
  | nil => simp [tokens, readRules] at h
  | cons first below =>
      obtain ⟨-, -, -, -, hcount⟩ := exists_isLine hlines
      have hnumber (front : List Char) :
          1 + above.length + front.count '\n' = lineBehind (above.flatten ++ front) := by
        rw [lineBehind_append, lineBehind, hcount, Nat.add_comm 1]
      rcases h with herror | ⟨numbered, hok, herror⟩
      · obtain ⟨front, back, found, hwhole, hscans, hunread⟩ := tokens_eq_error herror
        rw [hnumber] at hunread
        exact ⟨_, .character (hwhole ▸ hdivides) hscans hunread⟩
      · obtain ⟨before, token, number, after, rfl, hmisread⟩ := readRules_none_eq_error herror
        obtain ⟨hscans, hstands⟩ := tokens_eq_ok hok
        obtain ⟨front, hfront, rfl⟩ := hstands before token number after rfl
        rw [hnumber] at hmisread
        rw [List.map_append, List.map_cons] at hscans
        exact ⟨_, .token hdivides hscans hfront hmisread⟩

end Parsing

end Source

open Text Source

theorem Source.Offends.line {text front : List Char} {error : GrammarError} (h : Offends text front error) :
    error.line? = some (lineBehind front) := by
  cases h with
  | directive | lexerRule => rfl
  | character _ _ h => cases h <;> rfl
  | token _ _ _ h => cases h <;> rfl

theorem Source.Offends.isPrefix {text front : List Char} {error : GrammarError} (h : Offends text front error) :
    front <+: text := by
  have hrules : rulePart text <+: text := (rulePart_lines rfl).2
  cases h with
  | directive _ hline => exact List.IsPrefix.trans ⟨_, hline.whole.symm⟩ hrules
  | lexerRule hline =>
      obtain ⟨back, hline, -⟩ := hline.line
      exact ⟨_, hline.whole.symm⟩
  | character hdivides =>
      refine List.IsPrefix.trans ?_ hrules
      rw [hdivides.whole, ← List.append_assoc]
      exact List.prefix_append ..
  | token hdivides _ hstands =>
      obtain ⟨piece, back, rfl, -⟩ := hstands.whole
      refine List.IsPrefix.trans ?_ hrules
      rw [hdivides.whole, ← List.append_assoc]
      exact List.prefix_append ..

-- Lexer rules and failures have the number of the line that they start on.
theorem GrammarSource.parse_lines (text : String) (whitespace : Bool) :
    (∀ source, GrammarSource.parse text whitespace = .ok source →
      source.lexerRules.Pairwise (·.line < ·.line) ∧
        ∀ rule ∈ source.lexerRules, ∃ front above content, LexerLine text.toList front above content ∧
          rule.WrittenAs content ∧ rule.line = lineBehind front) ∧
    ∀ error line, GrammarSource.parse text whitespace = .error error → error.line? = some line →
      ∃ front, front <+: text.toList ∧ line = lineBehind front ∧ Offends text.toList front error := by
  obtain ⟨ruleLines, lexerLines, hsections⟩ :
      ∃ ruleLines lexerLines, splitSections (linesWithEnds text.toList) = (ruleLines, lexerLines) := ⟨_, _, rfl⟩
  refine ⟨fun source h => ⟨?_, exists_lexerLine hsections h⟩, fun error line h hline => ?_⟩
  · exact (readLexerRules_eq_ok (readLexerRules_of_parse hsections h)).1
  obtain ⟨front, hoffends⟩ : ∃ front, Offends text.toList front error := by
    rcases failure_of_parse hsections h hline with hheader | hlexer | ⟨header, next, body, hheader, hbody⟩
    · exact offends_of_readHeader hsections hheader
    · exact offends_of_readLexerRules hsections hlexer
    · exact offends_of_tokens hsections hheader hbody
  exact ⟨front, hoffends.isPrefix, Option.some.inj (hline.symm.trans hoffends.line), hoffends⟩

-- A header, a terminal of two lines, blank lines and carriage returns.
theorem GrammarSource.parse_lines_crooked :
    let whole := "\n%left +\n \r\nE ::= E \"+\n\" E\r\n| \"x\" ;\n%%\n\r\nws:\"[ ]+\"\r\n\nid:\"x\""
    let broken := "\n%left +\n \r\nE ::= E \"+\n\" E\r\n| %prec"
    (∃ source, GrammarSource.parse whole true = .ok source ∧ source.lexerRules.map (·.line) = [9, 11] ∧
      source.lexerRules.Pairwise (·.line < ·.line) ∧
        ∀ rule ∈ source.lexerRules, ∃ front above content, LexerLine whole.toList front above content ∧
          rule.WrittenAs content ∧ rule.line = lineBehind front) ∧
    GrammarSource.parse broken false = .error (.unexpectedToken 6 "end of input" .tagTerminal) ∧
      ∃ front, front <+: broken.toList ∧ 6 = lineBehind front ∧
        Offends broken.toList front (.unexpectedToken 6 "end of input" .tagTerminal) := by
  intro whole broken
  have hwhole : ((GrammarSource.parse whole true).toOption.any fun source =>
      source.lexerRules.map (·.line) == [9, 11]) = true := by decide +kernel
  obtain ⟨source, hparse, hlines⟩ := exists_of_toOption_any hwhole
  have hbroken : ((GrammarSource.parse broken false).map fun _ => ()) =
      .error (.unexpectedToken 6 "end of input" .tagTerminal) := by decide +kernel
  have herror : GrammarSource.parse broken false = .error (.unexpectedToken 6 "end of input" .tagTerminal) := by
    cases hresult : GrammarSource.parse broken false with
    | error other => rw [hresult] at hbroken; cases hbroken; rfl
    | ok => rw [hresult] at hbroken; cases hbroken
  exact ⟨⟨source, hparse, beq_iff_eq.mp hlines, (parse_lines whole true).1 source hparse⟩, herror,
    (parse_lines broken false).2 _ _ herror rfl⟩

end IncrementalLR
