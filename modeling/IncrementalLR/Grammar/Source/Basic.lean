import IncrementalLR.Grammar.Source.Header
import IncrementalLR.Grammar.Source.Padding
import IncrementalLR.Text.Blank
import IncrementalLR.Text.Lines

namespace IncrementalLR

open Source Text

-- A grammar read from text, with its lexer rules and options.
structure GrammarSource where
  grammar : Grammar
  lexerRules : List LexerRule
  options : Options

namespace Source

-- The lines before and after the first one that holds nothing but the mark of
-- the lexer section. Without a mark all lines belong to the rules.
def splitSections : List (List Char) → List (List Char) × List (List Char)
  | [] => ([], [])
  | line :: rest =>
      if trim line = ['%', '%'] then ([], rest)
      else
        let (rules, lexer) := splitSections rest
        (line :: rules, lexer)

def alternativesOf (rules : List NamedRule) : List (String × Alternative) :=
  rules.flatMap fun (name, alternatives) => alternatives.map (name, ·)

-- The first rule gives the start symbol.
def declarations (rules : List NamedRule) (lexerRules : List LexerRule) (header : Header) :
    Except GrammarError Declarations :=
  match rules with
  | [] => .error .empty
  | (start, _) :: _ =>
      .ok
        (if header.options.whitespace then
          ⟨some paddedStart, alternativesOf (padRules rules lexerRules start), header.precedences⟩
        else ⟨some start, alternativesOf rules, header.precedences⟩)

end Source

namespace GrammarSource

-- Whitespace mode is on if it is asked for or if the header sets it.
def parse (text : String) (whitespace : Bool) : Except GrammarError GrammarSource := do
  let (ruleLines, lexerLines) := splitSections (linesWithEnds text.toList)
  let (header, bodyLine, body) ← readHeader default 1 ruleLines
  let options := { header.options with whitespace := header.options.whitespace || whitespace }
  let header := { header with options := options }
  let lexerRules ← readLexerRules (ruleLines.length + 2) (lexerLines.map dropLineEnd)
  let rules ← readRules none (← tokens bodyLine body.flatten)
  let declared ← declarations (mergeRules rules) lexerRules header
  return ⟨← declared.build, lexerRules, options⟩

end GrammarSource

end IncrementalLR
