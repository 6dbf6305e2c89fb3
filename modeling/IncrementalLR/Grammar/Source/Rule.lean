import IncrementalLR.Grammar.Build
import IncrementalLR.Grammar.Source.Token

namespace IncrementalLR.Source

-- A name and the alternatives declared for it.
abbrev NamedRule := String × List Alternative

-- The rule that is being read: its name, its finished alternatives and the one
-- that is not finished.
structure OpenRule where
  name : String
  finished : List Alternative
  current : Alternative
deriving DecidableEq, Inhabited

namespace OpenRule

def start (name : String) : OpenRule := ⟨name, [], default⟩

def close (rule : OpenRule) : NamedRule := (rule.name, rule.finished ++ [rule.current])

def nextAlternative (rule : OpenRule) : OpenRule :=
  ⟨rule.name, rule.finished ++ [rule.current], default⟩

def addSymbol (rule : OpenRule) (symbol : Symbol) : OpenRule :=
  { rule with current := { rule.current with symbols := rule.current.symbols ++ [symbol] } }

def setTag (rule : OpenRule) (name : String) : OpenRule :=
  { rule with current := { rule.current with tag := some name } }

def setTemplate (rule : OpenRule) (text : String) : OpenRule :=
  { rule with current := { rule.current with template := some text } }

end OpenRule

-- Two names are kept for the wildcards.
def nameSymbol (name : String) : Symbol :=
  if name = "ANY" then .wildcard .multiline
  else if name = "ANYNCR" then .wildcard .singleLine
  else .nonterminal name

def closeRule (rule : Option OpenRule) : List NamedRule := (rule.map OpenRule.close).toList

-- A name before the mapping sign opens a rule wherever it stands, so the
-- semicolon behind a rule may be left out.
def readRules (rule : Option OpenRule) : List (Token × Nat) → Except GrammarError (List NamedRule)
  | [] => .ok (closeRule rule)
  | (.name name, _) :: (.mapsTo, _) :: rest =>
      (readRules (some (.start name)) rest).map (closeRule rule ++ ·)
  | (token, line) :: rest =>
      match rule with
      | none =>
          match token with
          | .name name => .error (.missingMapping line name)
          | token => .error (.unexpectedToken line token.display .ruleName)
      | some rule =>
          match token with
          | .semicolon => (readRules none rest).map (rule.close :: ·)
          | .alternative => readRules (some rule.nextAlternative) rest
          | .terminal name => readRules (some (rule.addSymbol (.terminal name))) rest
          | .magic name => readRules (some (rule.addSymbol (.magic name))) rest
          | .name name => readRules (some (rule.addSymbol (nameSymbol name))) rest
          | .template text => readRules (some (rule.setTemplate text)) rest
          | .mapsTo => .error (.unexpectedToken line "::=" .symbol)
          | .tag =>
              match rest with
              | [] => .error (.unexpectedToken line "end of input" .tagTerminal)
              | (.terminal name, _) :: rest => readRules (some (rule.setTag name)) rest
              | (.name name, _) :: rest => readRules (some (rule.setTag name)) rest
              | (token, line) :: _ => .error (.unexpectedToken line token.display .tagTerminal)

-- Rules of one name are one rule, at the place of the first.
def mergeRule (rules : List NamedRule) (rule : NamedRule) : List NamedRule :=
  if rules.any (·.1 == rule.1) then
    rules.map fun (name, alternatives) =>
      if name = rule.1 then (name, alternatives ++ rule.2) else (name, alternatives)
  else rules ++ [rule]

def mergeRules (rules : List NamedRule) : List NamedRule := rules.foldl mergeRule []

end IncrementalLR.Source
