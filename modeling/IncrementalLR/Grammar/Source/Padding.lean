import IncrementalLR.Grammar.Source.LexerRule
import IncrementalLR.Grammar.Source.Rule

namespace IncrementalLR.Source

-- The nonterminal that stands for the whitespace behind a terminal.
def padding : Symbol := .nonterminal "WS"

def paddedStart : String := "Startrule"

def commentRule : String := "comment"

def followsPadding : Symbol → Bool
  | .terminal _ | .magic _ => true
  | _ => false

-- A wildcard takes the whitespace before it itself.
def dropBeforeWildcard : List Symbol → List Symbol
  | [] => []
  | [symbol] => [symbol]
  | symbol :: next :: rest =>
      if symbol = padding && next.isWildcard then dropBeforeWildcard (next :: rest)
      else symbol :: dropBeforeWildcard (next :: rest)

def padSymbols (symbols : List Symbol) : List Symbol :=
  dropBeforeWildcard
    (symbols.flatMap fun symbol => if followsPadding symbol then [symbol, padding] else [symbol])

-- Comments keep the shape in which they are declared.
def padRule (rule : NamedRule) : NamedRule :=
  if rule.1 = commentRule then rule
  else (rule.1, rule.2.map fun alternative =>
    { alternative with symbols := padSymbols alternative.symbols })

-- The lexer rules whose tokens are whitespace.
def blankRules : List String := ["<ws>", "<return>"]

-- Whitespace is a sequence of blank tokens and comments.
def paddingRule (rules : List NamedRule) (lexerRules : List LexerRule) : NamedRule :=
  let blanks := blankRules.filter fun name => lexerRules.any (·.name == name)
  let comments := if rules.any (·.1 == commentRule) then [commentRule] else []
  let units := blanks.map Symbol.terminal ++ comments.map Symbol.nonterminal
  (padding.name, units.map (⟨[·, padding], none, none⟩) ++ [default])

-- Rules with whitespace behind every terminal and before the start symbol.
def padRules (rules : List NamedRule) (lexerRules : List LexerRule) (start : String) :
    List NamedRule :=
  rules.map padRule ++
    [paddingRule rules lexerRules,
      (paddedStart, [⟨[padding, .nonterminal start], none, none⟩])]

end IncrementalLR.Source
